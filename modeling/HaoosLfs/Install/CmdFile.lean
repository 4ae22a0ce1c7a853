import HaoosLfs.Install.InstallPkg

/-!
# The script of an entry (`install.sh:56-63`, `101-110`)

`CMD_FILE_PATH` holds what `find` prints for the name of a script, in the order of
the disk and in all chapters; without quotes it becomes several words, and only
the first one is executed.
-/

namespace HaoosLfs.Install
open Text ShellWords

/-- The word after `bash -e`; the others are its arguments. -/
def scriptOf (cmdFilePath : List Text) : Option Text := (scriptWords cmdFilePath).head?

/-- What `find` prints, in some order: the paths with a base name that matches. -/
def foundIn (fnmatch : Text → Text → Bool) (tree : List Text) (entry : Text) : List Text :=
  tree.filter fun path => fnmatch (entry ++ ".cmd".toList) (basename path)

def executed (sh : Shell) (found : List Text) (entry : Text) : Option Text :=
  scriptOf (transName (fun (_ : Unit) _ => found) () sh entry).cmdFilePath

/-- Where `build.sh` has put the script of a page of this chapter. -/
def chapterScript (chapter entry : Text) : Text :=
  "./build/cmd/lfs/".toList ++ (chapter ++ '/' :: (entry ++ ".cmd".toList))

def ScriptFixed (fnmatch : Text → Text → Bool) (tree : List Text) (chapter entry : Text) : Prop :=
  chapterScript chapter entry ∈ tree ∧
    ∀ (sh : Shell) (found found' : List Text), found.Perm (foundIn fnmatch tree entry) →
      found'.Perm (foundIn fnmatch tree entry) →
        executed sh found entry = executed sh found' entry ∧
          executed sh found entry = some ("../../../../".toList ++ chapterScript chapter entry)

def lfsPaths (fnmatch : Text → Text → Bool) (tree : List Text) (entry : Text) : List Text :=
  (foundIn fnmatch tree entry).filter fun path => contains path "lfs".toList

theorem executed_eq (sh : Shell) (found : List Text) (entry : Text) :
    executed sh found entry =
      scriptOf (found.filter fun path => contains path "lfs".toList) := rfl

theorem executed_of_job {ω : Type} {host : Host ω} {w : ω} {sh : Shell} {entry : Text} {job : Job}
    (hj : jobOf host w (transName host.find w sh entry) = some job) :
    scriptOf job.cmdFilePath = executed sh (host.find w (entry ++ ".cmd".toList)) entry := by
  obtain ⟨url, -, rfl⟩ := Option.map_eq_some_iff.mp hj
  rfl

theorem scriptOf_cons (path : Text) (paths : List Text) :
    scriptOf (path :: paths) = some ("../../../../".toList ++ firstWord path) := by
  have hfirst : firstWord ("../../../../".toList ++ joinLines (path :: paths)) =
      "../../../../".toList ++ firstWord path := by
    have hblank : "../../../../".toList.all (fun c => !isIfs c) = true := by decide
    rw [firstWord_append (fun c hc => by simpa using List.all_eq_true.mp hblank c hc),
      firstWord_joinLines]
  have hne : "../../../../".toList ++ firstWord path ≠ [] := fun h =>
    absurd (List.append_eq_nil_iff.mp h).1 (by decide)
  unfold scriptOf scriptWords
  rw [head?_words (by rw [hfirst]; exact hne), hfirst]

theorem scriptOf_nil : scriptOf [] = some "../../../../".toList := by decide

theorem chapterScript_ne_nil (chapter entry : Text) : chapterScript chapter entry ≠ [] := fun h =>
  absurd (List.append_eq_nil_iff.mp h).1 (by decide)

/-- For every tree, the script of an entry is that of the chapter in any order exactly
when the chapter has one, and what `find` prints of this name with `lfs` in it is not
empty and consists of paths that are, up to the first blank, this script. -/
theorem script_fixed_iff (fnmatch : Text → Text → Bool) (tree : List Text) (chapter entry : Text) :
    ScriptFixed fnmatch tree chapter entry ↔
      chapterScript chapter entry ∈ tree ∧ lfsPaths fnmatch tree entry ≠ [] ∧
        ∀ path ∈ lfsPaths fnmatch tree entry, firstWord path = chapterScript chapter entry := by
  unfold ScriptFixed
  rw [and_congr_right_iff]
  intro _
  constructor
  · intro h
    constructor
    · intro hnil
      have hrun := (h ⟨[], [], [], []⟩ _ _ (List.Perm.refl _) (List.Perm.refl _)).2
      rw [executed_eq, show (foundIn fnmatch tree entry).filter _ = [] from hnil, scriptOf_nil]
        at hrun
      exact chapterScript_ne_nil chapter entry (List.self_eq_append_right.mp (Option.some.inj hrun))
    · intro path hpath
      -- an order in which this path comes first
      obtain ⟨hm, hlfs⟩ := List.mem_filter.mp hpath
      obtain ⟨before, after, hsplit⟩ := List.append_of_mem hm
      have hperm : (path :: (before ++ after)).Perm (foundIn fnmatch tree entry) := by
        rw [hsplit]
        exact List.perm_middle.symm
      have hfirst : (path :: (before ++ after)).filter (fun path => contains path "lfs".toList) =
          path :: (before ++ after).filter fun path => contains path "lfs".toList :=
        List.filter_cons_of_pos hlfs
      have hrun := (h ⟨[], [], [], []⟩ _ _ hperm hperm).2
      rw [executed_eq, hfirst, scriptOf_cons] at hrun
      exact List.append_cancel_left (Option.some.inj hrun)
  · rintro ⟨hne, hall⟩
    have hrun : ∀ (sh : Shell) (found : List Text), found.Perm (foundIn fnmatch tree entry) →
        executed sh found entry =
          some ("../../../../".toList ++ chapterScript chapter entry) := by
      intro sh found hperm
      have hpaths : (found.filter fun path => contains path "lfs".toList).Perm
          (lfsPaths fnmatch tree entry) := hperm.filter _
      rw [executed_eq]
      cases hf : found.filter fun path => contains path "lfs".toList with
      | nil =>
        rw [hf] at hpaths
        exact absurd hpaths.nil_eq.symm hne
      | cons path paths =>
        rw [hf] at hpaths
        rw [scriptOf_cons, hall path (hpaths.subset List.mem_cons_self)]
    intro sh found found' hf hf'
    rw [hrun sh found hf, hrun sh found' hf']
    exact ⟨rfl, rfl⟩

/-- The chapters 6 and 8 both have a script for `m4`. -/
theorem not_script_fixed_m4 :
    ¬ ScriptFixed (fun pattern name => decide (pattern = name))
      ["./build/cmd/lfs/chapter08/m4.cmd".toList, "./build/cmd/lfs/chapter06/m4.cmd".toList]
      "chapter06".toList "m4".toList := by
  rintro ⟨-, h⟩
  have hrun := (h ⟨[], [], [], []⟩ _ _ (List.Perm.refl _) (List.Perm.refl _)).2
  revert hrun
  decide +kernel

end HaoosLfs.Install
