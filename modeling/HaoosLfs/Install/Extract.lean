import HaoosLfs.Install.TransName
import HaoosLfs.Lib.Redirect
import HaoosLfs.Lib.ShellExpand

/-!
# Extracting all commands (`build.sh:92-112`, `blfs-build.sh:92-112`)

`-x all` writes the commands of each XML file to `$CMD_PATH/<directory>/<page>.cmd`,
where only the last directory of the file is kept, and removes the file again when
it is empty. No variable of the loop is quoted.
-/

namespace HaoosLfs.Install
open Text ShellWords

section

/- The directories while the loop is running, the patterns of the shell and of `find`, and
what `xml -n cmd` prints for its operands. -/
variable (e : Pathnames) (fnmatch : Text → Text → Bool) (cmdPath : Text) (out : List Text → Text)

/-- `basename $file`, of a name or of a name and a suffix. -/
def basenameArgs : List Text → Text
  | [name] => basenameArg name
  | [name, suffix] => basenameS suffix name
  | _ => []

/-- `basename -s .xml $XML_NAME`, with a line for each name; a first one that reads as an option
is an error. -/
def pageNames (names : List Text) : Text :=
  if ∃ name ∈ names.head?, name.head? = some '-' ∧ name ≠ ['-'] then []
  else joinLines (names.map fun name => removeSuffix ".xml".toList (basename name))

def echoed (words : List Text) : Text :=
  List.intercalate [' '] (words.dropWhile fun w => w ∈ ["-n".toList, "-e".toList, "-E".toList])

def cmdFilePath (file : Text) : Text :=
  cmdPath ++ '/' :: (fieldBeforeLast (echoed (e.unquoted file)) ++
    '/' :: (pageNames (e.unquoted (basenameArgs (e.unquoted file))) ++ ".cmd".toList))

/-- `xml -n cmd $file > $CMD_FILE_PATH`; a file that is not `-s` is removed. To several words
nothing is redirected, and a pattern may be another `.cmd` file that is there. -/
def extractStep (file : Text) : Redirect Text where
  target :=
    if words (cmdFilePath e cmdPath file) = [cmdFilePath e cmdPath file] ∧
      hasPattern (cmdFilePath e cmdPath file) = false then some (cmdFilePath e cmdPath file)
    else none
  others path :=
    words (cmdFilePath e cmdPath file) = [cmdFilePath e cmdPath file] ∧
      (path = cmdFilePath e cmdPath file ∨ fnmatch (cmdFilePath e cmdPath file) path)
  content := if out (e.unquoted file) = [] then none else some (out (e.unquoted file))

/-- `find $CMD_PATH -name *.cmd -delete`, where the pattern may be a file beside the script. -/
def deleteCmd (t : Files Text) : Files Text :=
  match e.unquoted "*.cmd".toList with
  | [pattern] => fun p =>
    if cmdPath ++ ['/'] <+: p ∧ fnmatch pattern (basename p) then none else t p
  | _ => t

/-- `-x all`, where `find` has printed these paths. -/
def ExtractAll (t : Files Text) (found : List Text) (t' : Files Text) : Prop :=
  Redirect.Turns (deleteCmd e fnmatch cmdPath t)
    ((e.unquoted (joinLines found)).map (extractStep e fnmatch cmdPath out)) t'

def cmdFileOf (file : Text) : Text :=
  cmdPath ++ '/' :: (fieldBeforeLast file ++
    '/' :: (basenameS ".xml".toList (basename file) ++ ".cmd".toList))

/-- Whatever the order, each file with commands has them in its `.cmd` file. -/
def NothingLost (files : List Text) : Prop :=
  ∀ (t : Files Text) (found : List Text), found.Perm files → ∀ t',
    ExtractAll e fnmatch cmdPath out t found t' → ∀ file ∈ files, out [file] ≠ [] →
      t' (cmdFileOf cmdPath file) = some (out [file])

/-- The turns of the loop for one path; without blanks and patterns there is one. -/
def turnsFor (path : Text) : List (Redirect Text) :=
  (e.unquoted path).map (extractStep e fnmatch cmdPath out)

end

variable {e : Pathnames} {fnmatch : Text → Text → Bool} {cmdPath : Text} {out : List Text → Text}

theorem extractAll_iff {t t' : Files Text} {found : List Text} :
    ExtractAll e fnmatch cmdPath out t found t' ↔
      Redirect.Turns (deleteCmd e fnmatch cmdPath t)
        (found.flatMap (turnsFor e fnmatch cmdPath out)) t' := by
  unfold ExtractAll
  rw [e.unquoted_joinLines, List.map_flatMap]
  rfl

theorem deleteCmd_none : deleteCmd e fnmatch cmdPath (fun _ => none) = fun _ => none := by
  unfold deleteCmd
  split
  · exact funext fun _ => ite_self none
  · rfl

/-- For every set of files, no commands are lost in any order exactly when for each file with
commands some turn is certain to write its `.cmd` file, and in the turns for each path the last
ones that may write it have the same output as this file. -/
theorem nothing_lost_iff (e : Pathnames) (fnmatch : Text → Text → Bool) (cmdPath : Text)
    (out : List Text → Text) (files : List Text) :
    NothingLost e fnmatch cmdPath out files ↔
      ∀ file ∈ files, out [file] ≠ [] →
        (∃ path ∈ files, ∃ r ∈ turnsFor e fnmatch cmdPath out path,
          r.target = some (cmdFileOf cmdPath file)) ∧
        ∀ path ∈ files, ∀ r,
          Redirect.IsLast (turnsFor e fnmatch cmdPath out path) (cmdFileOf cmdPath file) r →
            r.content = some (out [file]) := by
  constructor
  · intro h file hfile hne
    constructor
    · -- on an empty disk a file that no turn is certain to write may not be written
      by_contra! hno
      obtain ⟨t', hrun, hkept⟩ := Redirect.exists_turns
        (files.flatMap (turnsFor e fnmatch cmdPath out))
        (deleteCmd e fnmatch cmdPath fun _ => none)
      have hlost : t' (cmdFileOf cmdPath file) = none := by
        rw [hkept, deleteCmd_none]
        intro r hr
        obtain ⟨path, hpath, hr⟩ := List.mem_flatMap.mp hr
        exact hno path hpath r hr
      have hfinal := h _ files (List.Perm.refl _) t' (extractAll_iff.mpr hrun) file hfile hne
      rw [hlost] at hfinal
      cases hfinal
    · -- an order in which this path comes last
      intro path hpath r hlast
      obtain ⟨before, after, rfl⟩ := List.append_of_mem hpath
      have hperm : (before ++ after ++ [path]).Perm (before ++ path :: after) := by
        rw [List.append_assoc]
        exact (List.perm_append_singleton path after).append_left before
      obtain ⟨t₁, h₁, -⟩ := Redirect.exists_turns
        ((before ++ after).flatMap (turnsFor e fnmatch cmdPath out))
        (deleteCmd e fnmatch cmdPath fun _ => none)
      obtain ⟨t', h', hcontent⟩ := Redirect.exists_turns_last hlast t₁
      have hrun :
          ExtractAll e fnmatch cmdPath out (fun _ => none) (before ++ after ++ [path]) t' := by
        rw [extractAll_iff, List.flatMap_append, List.flatMap_singleton]
        exact Redirect.turns_append.mpr ⟨t₁, h₁, h'⟩
      rw [← hcontent]
      exact h _ _ hperm t' hrun file hfile hne
  · intro h t found hperm t' hrun file hfile hne
    obtain ⟨⟨path, hpath, r, hr, htarget⟩, hall⟩ := h file hfile hne
    rw [extractAll_iff] at hrun
    rcases Redirect.content_of_turns hrun with ⟨s, hlast, hcontent⟩ | ⟨hnone, -⟩
    · obtain ⟨g, hg, hlast⟩ := Redirect.isLast_flatMap hlast
      rw [hcontent]
      exact hall g (hperm.subset hg) s hlast
    · exact absurd htarget
        (hnone r (List.mem_flatMap.mpr ⟨path, hperm.symm.subset hpath, hr⟩))

theorem pageNames_single (name : Text) : pageNames [name] = basenameS ".xml".toList name := by
  have hjoin : joinLines [removeSuffix ".xml".toList (basename name)] =
      removeSuffix ".xml".toList (basename name) := by simp [joinLines]
  unfold pageNames basenameS
  rw [List.map_singleton, hjoin]
  by_cases hnil : name = []
  · subst hnil
    rfl
  · simp [hnil]

/-- A path that the shell neither splits nor expands has one turn, which writes the `.cmd` file
of this path when that is not split or expanded either. -/
theorem turnsFor_plain {file : Text} (hfile : e.unquoted file = [file])
    (hdash : file.head? ≠ some '-') (hname : e.unquoted (basename file) = [basename file])
    (hcmd : words (cmdFileOf cmdPath file) = [cmdFileOf cmdPath file])
    (hpattern : hasPattern (cmdFileOf cmdPath file) = false) :
    ∃ r, turnsFor e fnmatch cmdPath out file = [r] ∧ r.target = some (cmdFileOf cmdPath file) ∧
      r.content = if out [file] = [] then none else some (out [file]) := by
  have hbase : basenameArgs [file] = basename file := if_neg fun h => hdash h.1
  have hecho : echoed [file] = file := by
    unfold echoed
    rw [List.dropWhile_cons_of_neg]
    · simp
    · intro h
      simp only [List.mem_cons, List.not_mem_nil, or_false, decide_eq_true_eq] at h
      rcases h with rfl | rfl | rfl <;> exact hdash rfl
  have hpath : cmdFilePath e cmdPath file = cmdFileOf cmdPath file := by
    unfold cmdFilePath cmdFileOf
    rw [hfile, hbase, hname, hecho, pageNames_single]
  refine ⟨extractStep e fnmatch cmdPath out file, ?_, ?_, ?_⟩
  · rw [turnsFor, hfile, List.map_singleton]
  · show (if _ then _ else _) = _
    rw [hpath, if_pos ⟨hcmd, hpattern⟩]
  · show (if _ then _ else _) = _
    rw [hfile]

def gccPage : Text := "/lfs-git/chapter08/gcc.xml".toList

def oldGccPage : Text := "/lfs-git/old/chapter08/gcc.xml".toList

def gccOut (args : List Text) : Text := if args = [gccPage] then "make".toList else []

/-- Two pages of one name in two directories of one name; the second removes the commands of
the first. -/
theorem not_nothing_lost_gcc :
    ¬ NothingLost noMatches (fun _ _ => false) "/build/cmd/lfs".toList gccOut
      [gccPage, oldGccPage] := by
  intro h
  have hplain : ∃ r,
      turnsFor noMatches (fun _ _ => false) "/build/cmd/lfs".toList gccOut oldGccPage = [r] ∧
      r.target = some (cmdFileOf "/build/cmd/lfs".toList oldGccPage) ∧
      r.content = if gccOut [oldGccPage] = [] then none else some (gccOut [oldGccPage]) :=
    turnsFor_plain (by decide +kernel) (by decide) (by decide +kernel) (by decide +kernel)
      (by decide +kernel)
  obtain ⟨r, hturns, htarget, hcontent⟩ := hplain
  have hlast : Redirect.IsLast [r] (cmdFileOf "/build/cmd/lfs".toList gccPage) r := by
    refine ⟨[], [], rfl, .inl ?_, List.forall_mem_nil _⟩
    rw [htarget]
    decide +kernel
  obtain ⟨t₁, h₁, -⟩ := Redirect.exists_turns
    (turnsFor noMatches (fun _ _ => false) "/build/cmd/lfs".toList gccOut gccPage)
    (deleteCmd noMatches (fun _ _ => false) "/build/cmd/lfs".toList fun _ => none)
  obtain ⟨t', h', hremoved⟩ := Redirect.exists_turns_last hlast t₁
  have hrun : ExtractAll noMatches (fun _ _ => false) "/build/cmd/lfs".toList gccOut (fun _ => none)
      [gccPage, oldGccPage] t' := by
    rw [extractAll_iff, List.flatMap_cons, List.flatMap_singleton, hturns]
    exact Redirect.turns_append.mpr ⟨t₁, h₁, h'⟩
  have hfinal := h _ _ (List.Perm.refl _) t' hrun gccPage List.mem_cons_self (by decide)
  rw [hremoved, hcontent] at hfinal
  revert hfinal
  decide

end HaoosLfs.Install
