import HaoosLfs.Book.LfsXsl
import HaoosLfs.Lib.Make
import HaoosLfs.Lib.ShellExpand

/-!
# The build Makefile (`build_Makefile.sh:79-157`)

The sorted scripts become one chain of rules: each rule has the script before it
as its prerequisite, and its recipe ends in `touch`. The scripts are shared out
among the goals SETUP, LUSER, SUDO and CHROOT, which are made one after the other
by different users in one directory. `scriptLoop` runs over the words of the listing,
`addScripts` over the scripts; they agree when each path is one word (`PlainScript`).
-/

namespace HaoosLfs.Build
open Book Text ShellWords

inductive Command where
  | shell (text : Text)
  | script (text : Text)
  | touch (file : Text)
  deriving DecidableEq

def Command.touches : Command → Option Text
  | .touch f => some f
  | _ => none

inductive Goal where
  | setup | luser | sudo | chroot
  deriving DecidableEq

def Goal.name : Goal → Text
  | .setup => "SETUP".toList
  | .luser => "LUSER".toList
  | .sudo => "SUDO".toList
  | .chroot => "CHROOT".toList

def Goal.all : List Goal := [.setup, .luser, .sudo, .chroot]

/-! ### The case arms -/

inductive Arm where
  | setup | settings | luser | sudo | chroot
  deriving DecidableEq

def Arm.goal : Arm → Goal
  | .setup => .setup
  | .settings => .luser
  | .luser => .luser
  | .sudo => .sudo
  | .chroot => .chroot

def startsWith (name : Text) (p : String) : Bool := p.toList.isPrefixOf name

/-- `case "$name" in`, in the order of the arms; the last one, `*)`, does nothing. -/
def caseArm (name : Text) : Option Arm :=
  if name = "401-creatingminlayout".toList || name = "402-addinguser".toList then some .setup
  else if name = "403-settingenvironment".toList then some .settings
  else if startsWith name "5" || startsWith name "6" then some .luser
  else if startsWith name "701" || startsWith name "702" then some .sudo
  else if startsWith name "7" || startsWith name "8" || startsWith name "9" ||
      startsWith name "10" then some .chroot
  else none

/-- `sed "s|$BUILDDIR||"`, for a directory without characters special to `sed`. -/
def chrootName (builddir path : Text) : Text :=
  match splitFirst builddir path with
  | some (before, after) => before ++ after
  | none => path

def quiet (text : Text) : Command := .script (text ++ " > /dev/null".toList)

def scriptCommand (builddir path : Text) : Arm → Command
  | .setup => quiet ("bash ".toList ++ path)
  | .settings | .luser | .sudo => quiet path
  | .chroot => quiet (chrootName builddir path)

def Arm.before : Arm → List Command
  | .setup | .sudo => [.shell "export LFS=$(MOUNT_PT)".toList]
  | .settings =>
    [.shell "cd".toList, .shell "function source() \x7b true; \x7d".toList,
      .shell "export -f source".toList]
  | .luser => [.shell "source ~/.bashrc".toList]
  | .chroot => []

def Arm.after : Arm → List Command
  | .settings => [.shell "sed 's|/mnt/lfs|$(MOUNT_PT)|' -i .bashrc".toList, .shell "cd -".toList]
  | _ => []

def armRecipe (builddir path name : Text) (arm : Arm) : List Command :=
  arm.before ++ scriptCommand builddir path arm :: arm.after ++ [.touch name]

/-! ### The loop -/

structure Generator where
  rules : Rules Text Command
  pre : Option Text
  targets : Goal → List Text

section

variable (builddir root : Text)

def namedRecipe (script name : Text) : List Command :=
  match caseArm name with
  | some arm => armRecipe builddir script name arm
  | none => []

def namedGoal (name : Text) : Option Goal := (caseArm name).map Arm.goal

def addNamed (g : Generator) (script name : Text) : Generator where
  rules := g.rules ++ [⟨name, g.pre.toList, namedRecipe builddir script name⟩]
  pre := some name
  targets goal := if namedGoal name = some goal then g.targets goal ++ [name] else g.targets goal

def Generator.start : Generator := ⟨[], none, fun _ => []⟩

/-- The loop over these words; `name=$(basename "$script")`. -/
def scriptLoop (words : List Text) : Generator :=
  words.foldl (fun g script => addNamed builddir g script (basenameArg script)) .start

def scriptRecipe (s : Script) : List Command := namedRecipe builddir (s.path root) s.file

def scriptGoal (s : Script) : Option Goal := namedGoal s.file

def addScript (g : Generator) (s : Script) : Generator := addNamed builddir g (s.path root) s.file

def addScripts (scripts : List Script) : Generator :=
  scripts.foldl (addScript builddir root) .start

def goalRules (g : Generator) : Rules Text Command :=
  Goal.all.map fun goal => ⟨goal.name, g.targets goal, []⟩

def buildMakefile (scripts : List Script) : Rules Text Command :=
  let g := addScripts builddir root scripts
  g.rules ++ goalRules g

/-- The shell leaves the path of the script alone, and its name has no slash. -/
structure PlainScript (s : Script) : Prop where
  blank : ∀ c ∈ s.path root, isIfs c = false
  pattern : hasPattern (s.path root) = false
  dash : (s.path root).head? ≠ some '-'
  slash : '/' ∉ s.file
  ne_nil : s.file ≠ []

/-- For names that the shell leaves alone the loop makes a turn for each listed script. -/
theorem scriptLoop_eq (e : Pathnames) {scripts : List Script}
    (h : ∀ s ∈ scripts, PlainScript root s) :
    scriptLoop builddir (e.unquoted (joinLines (scripts.map (Script.path root)))) =
      addScripts builddir root scripts := by
  have hwords : e.unquoted (joinLines (scripts.map (Script.path root))) =
      scripts.map (Script.path root) := by
    rw [e.unquoted_joinLines, List.flatMap_map]
    calc scripts.flatMap (fun s => e.unquoted (s.path root))
        = scripts.flatMap (fun s => [s.path root]) := by
          refine List.flatMap_congr fun s hs => e.unquoted_plain ?_ (h s hs).blank (h s hs).pattern
          simp [Script.path]
      _ = scripts.map (Script.path root) := by rw [← List.map_eq_flatMap]
  have hname : ∀ s ∈ scripts, basenameArg (s.path root) = s.file := by
    intro s hs
    have hplain := h s hs
    have hpath : s.path root = (root ++ s.dir) ++ '/' :: s.file := by simp [Script.path]
    obtain ⟨c, cs, hc⟩ := List.exists_cons_of_ne_nil hplain.ne_nil
    rw [basenameArg, if_neg fun hd => hplain.dash hd.1, hpath, basename_append]
    · exact basename_plain hplain.slash
    · refine ⟨c, by rw [hc]; exact List.mem_cons_self, ?_⟩
      rintro rfl
      exact hplain.slash (by rw [hc]; exact List.mem_cons_self)
  unfold scriptLoop addScripts
  rw [hwords, List.foldl_map]
  refine List.foldl_ext _ _ _ fun g s hs => ?_
  rw [hname s hs]
  rfl

/-! ### What the loop writes -/

def chainRules (pre : Option Text) : List Script → Rules Text Command
  | [] => []
  | s :: scripts =>
    ⟨s.file, pre.toList, scriptRecipe builddir root s⟩ :: chainRules (some s.file) scripts

theorem foldl_addScript (scripts : List Script) (g : Generator) :
    (scripts.foldl (addScript builddir root) g).rules =
        g.rules ++ chainRules builddir root g.pre scripts ∧
      ∀ goal, (scripts.foldl (addScript builddir root) g).targets goal =
        g.targets goal ++ (scripts.filter fun s => scriptGoal s = some goal).map Script.file := by
  induction scripts generalizing g with
  | nil => simp [chainRules]
  | cons s scripts ih =>
    obtain ⟨hrules, htargets⟩ := ih (addScript builddir root g s)
    refine ⟨?_, fun goal => ?_⟩
    · rw [List.foldl_cons, hrules]
      simp [addScript, addNamed, chainRules, scriptRecipe]
    · rw [List.foldl_cons, htargets goal]
      have hnamed : namedGoal s.file = scriptGoal s := rfl
      by_cases h : scriptGoal s = some goal
      · simp [addScript, addNamed, hnamed, h]
      · simp [addScript, addNamed, hnamed, h]

theorem buildMakefile_eq (scripts : List Script) :
    buildMakefile builddir root scripts = chainRules builddir root none scripts ++
      Goal.all.map fun goal =>
        ⟨goal.name, (scripts.filter fun s => scriptGoal s = some goal).map Script.file, []⟩ := by
  obtain ⟨hrules, htargets⟩ := foldl_addScript builddir root scripts .start
  simp only [buildMakefile, addScripts, goalRules, hrules, htargets]
  rfl

theorem chainRules_target (pre : Option Text) (scripts : List Script) :
    (chainRules builddir root pre scripts).map Rule.target = scripts.map Script.file := by
  induction scripts generalizing pre with
  | nil => rfl
  | cons s scripts ih => simp [chainRules, ih]

theorem chainRules_append (pre : Option Text) (a b : List Script) :
    chainRules builddir root pre (a ++ b) = chainRules builddir root pre a ++
      chainRules builddir root ((a.getLast?.map Script.file).or pre) b := by
  induction a generalizing pre with
  | nil => rfl
  | cons s a ih =>
    rw [List.cons_append, chainRules, ih, chainRules]
    cases h : a.getLast? with
    | none => simp [List.getLast?_cons, h]
    | some t => simp [List.getLast?_cons, h]

theorem chainRules_filter (pre : Option Text) {scripts : List Script} {t : Text}
    (h : t ∉ scripts.map Script.file) :
    (chainRules builddir root pre scripts).filter (fun r => r.target = t) = [] := by
  rw [← chainRules_target builddir root pre] at h
  apply List.filter_eq_nil_iff.mpr
  intro r hr
  simp only [decide_eq_true_eq]
  rintro rfl
  exact h (List.mem_map_of_mem hr)

theorem caseArm_goal (goal : Goal) : caseArm goal.name = none := by
  cases goal <;> decide

theorem goal_not_mem {scripts : List Script} (hall : ∀ s ∈ scripts, (caseArm s.file).isSome)
    (goal : Goal) : goal.name ∉ scripts.map Script.file := by
  intro hm
  obtain ⟨s, hs, he⟩ := List.mem_map.mp hm
  have := hall s hs
  rw [he, caseArm_goal] at this
  cases this

theorem rulesOf_script {scripts a b : List Script} {s : Script}
    (hall : ∀ s ∈ scripts, (caseArm s.file).isSome) (hn : (scripts.map Script.file).Nodup)
    (h : scripts = a ++ s :: b) :
    Make.rulesOf (buildMakefile builddir root scripts) s.file =
      [⟨s.file, (a.getLast?.map Script.file).toList, scriptRecipe builddir root s⟩] := by
  have hn' := hn
  rw [h, List.map_append, List.map_cons, List.nodup_append, List.nodup_cons] at hn'
  have ha : s.file ∉ a.map Script.file := fun hm =>
    hn'.2.2 s.file hm s.file List.mem_cons_self rfl
  have hs : s.file ∈ scripts.map Script.file := by
    rw [h]
    simp
  have hgoals : ∀ goal : Goal, goal.name ≠ s.file := fun goal he =>
    goal_not_mem hall goal (he ▸ hs)
  rw [Make.rulesOf, buildMakefile_eq, h, chainRules_append, chainRules, List.filter_append,
    List.filter_append, chainRules_filter _ _ _ ha, List.filter_cons_of_pos (by simp),
    chainRules_filter _ _ _ hn'.2.1.1, List.filter_eq_nil_iff.mpr]
  · simp
  · intro r hr
    obtain ⟨goal, -, rfl⟩ := List.mem_map.mp hr
    simpa using hgoals goal

theorem rulesOf_goal {scripts : List Script} (hall : ∀ s ∈ scripts, (caseArm s.file).isSome)
    (goal : Goal) :
    Make.rulesOf (buildMakefile builddir root scripts) goal.name =
      [⟨goal.name, (scripts.filter fun s => scriptGoal s = some goal).map Script.file, []⟩] := by
  rw [Make.rulesOf, buildMakefile_eq, List.filter_append,
    chainRules_filter _ _ _ (goal_not_mem hall goal), List.nil_append]
  cases goal <;> rfl

theorem prereqs_goal {scripts : List Script} (hall : ∀ s ∈ scripts, (caseArm s.file).isSome)
    (goal : Goal) :
    Make.prereqs (buildMakefile builddir root scripts) goal.name =
      (scripts.filter fun s => scriptGoal s = some goal).map Script.file := by
  rw [Make.prereqs, rulesOf_goal builddir root hall]
  simp

theorem scriptRecipe_touch {s : Script} (h : (caseArm s.file).isSome) :
    ∃ cs, scriptRecipe builddir root s = cs ++ [.touch s.file] ∧
      ∀ d ∈ cs, Command.touches d = none := by
  obtain ⟨arm, harm⟩ := Option.isSome_iff_exists.mp h
  refine ⟨arm.before ++ scriptCommand builddir (s.path root) arm :: arm.after, ?_, ?_⟩
  · simp only [scriptRecipe, namedRecipe, harm, armRecipe]
  · cases arm <;> simp [Arm.before, Arm.after, scriptCommand, quiet, Command.touches]

theorem recipe_script {scripts : List Script} (hall : ∀ s ∈ scripts, (caseArm s.file).isSome)
    (hn : (scripts.map Script.file).Nodup) {s : Script} (hs : s ∈ scripts) :
    Make.recipe (buildMakefile builddir root scripts) s.file = scriptRecipe builddir root s := by
  obtain ⟨a, b, h⟩ := List.append_of_mem hs
  obtain ⟨cs, hcs, -⟩ := scriptRecipe_touch builddir root (hall s hs)
  rw [Make.recipe, rulesOf_script builddir root hall hn h, hcs]
  simp

theorem chain_buildMakefile {scripts : List Script}
    (hall : ∀ s ∈ scripts, (caseArm s.file).isSome) (hn : (scripts.map Script.file).Nodup) :
    Make.Chain Command.touches (buildMakefile builddir root scripts) (scripts.map Script.file)
      (Goal.all.map Goal.name) where
  nodup := hn
  prereqs a x b h := by
    obtain ⟨a', y, rfl, rfl, hy⟩ := List.map_eq_append_iff.mp h
    obtain ⟨s, b', rfl, rfl, rfl⟩ := List.map_eq_cons_iff.mp hy
    rw [Make.prereqs, rulesOf_script builddir root hall hn rfl]
    simp
  recipe x hx := by
    obtain ⟨s, hs, rfl⟩ := List.mem_map.mp hx
    obtain ⟨cs, hcs, hother⟩ := scriptRecipe_touch builddir root (hall s hs)
    exact ⟨cs, _, by rw [recipe_script builddir root hall hn hs, hcs], rfl, hother⟩
  goal_not_mem g hg := by
    obtain ⟨goal, -, rfl⟩ := List.mem_map.mp hg
    exact goal_not_mem hall goal
  goal_prereqs g hg p hp := by
    obtain ⟨goal, -, rfl⟩ := List.mem_map.mp hg
    rw [prereqs_goal builddir root hall] at hp
    obtain ⟨s, hs, rfl⟩ := List.mem_map.mp hp
    exact List.mem_map_of_mem (List.mem_of_mem_filter hs)
  goal_recipe g hg := by
    obtain ⟨goal, -, rfl⟩ := List.mem_map.mp hg
    rw [Make.recipe, rulesOf_goal builddir root hall]
    rfl

theorem goal_unique {scripts : List Script} (hall : ∀ s ∈ scripts, (caseArm s.file).isSome)
    {s : Script} (hs : s ∈ scripts) :
    ∃! goal : Goal, s.file ∈ Make.prereqs (buildMakefile builddir root scripts) goal.name := by
  obtain ⟨arm, harm⟩ := Option.isSome_iff_exists.mp (hall s hs)
  refine ⟨arm.goal, ?_, fun goal hm => ?_⟩
  · simp only [prereqs_goal builddir root hall]
    refine List.mem_map_of_mem (List.mem_filter.mpr ⟨hs, ?_⟩)
    simp [scriptGoal, namedGoal, harm]
  · simp only [prereqs_goal builddir root hall] at hm
    obtain ⟨t, ht, hfile⟩ := List.mem_map.mp hm
    have hgoal := (List.mem_filter.mp ht).2
    simp only [scriptGoal, namedGoal, hfile, harm, Option.map_some, decide_eq_true_eq,
      Option.some.injEq] at hgoal
    exact hgoal.symm

/-- With distinct file names, every script belongs to one goal, and in every run
of the goals the stamps are those of the first `k` scripts; a script starts only
after the recipes of all scripts before it succeeded and while it has no stamp. -/
theorem build_in_order {scripts : List Script}
    (hall : ∀ s ∈ scripts, (caseArm s.file).isSome) (hn : (scripts.map Script.file).Nodup) :
    (∀ s ∈ scripts, ∃! goal : Goal,
      s.file ∈ Make.prereqs (buildMakefile builddir root scripts) goal.name) ∧
    ∀ (run : List (Make.Action Text)) (clock : ℕ),
      (∀ g, .make g ∈ run → g ∈ Goal.all.map Goal.name) →
      let s := Make.exec Command.touches (buildMakefile builddir root scripts) run
        (Make.fresh clock)
      (∃ k, ∀ f, (s.files f).isSome ↔ f ∈ (scripts.take k).map Script.file) ∧
      (∀ x ∈ scripts, (s.files x.file).isSome ↔ .finished x.file (.touch x.file) ∈ s.log) ∧
      ∀ a x b, scripts = a ++ x :: b → ∀ later earlier c,
        s.log = later ++ .started x.file c :: earlier →
        (∀ y ∈ a, ∀ d ∈ scriptRecipe builddir root y, .finished y.file d ∈ earlier) ∧
          .finished x.file (.touch x.file) ∉ earlier := by
  refine ⟨fun s hs => goal_unique builddir root hall hs, fun run clock hrun => ?_⟩
  obtain ⟨stamped, h⟩ := (chain_buildMakefile builddir root hall hn).exec hrun clock
  refine ⟨⟨stamped.length, fun f => ?_⟩, fun x hx => ?_, ?_⟩
  · rw [h.files, List.map_take, ← List.prefix_iff_eq_take.mp h.isPrefix]
  · rw [h.files]
    refine ⟨fun hm => h.finished _ hm _ ?_, fun hm => h.stamps _ _ hm rfl⟩
    obtain ⟨cs, hcs, -⟩ := scriptRecipe_touch builddir root (hall x hx)
    rw [recipe_script builddir root hall hn hx, hcs]
    simp
  · intro a x b hsplit later earlier c hlog
    obtain ⟨hbefore, hnot⟩ := h.started later earlier x.file c hlog (a.map Script.file)
      (b.map Script.file) (by rw [hsplit]; simp)
    refine ⟨fun y hy d hd => hbefore y.file (List.mem_map_of_mem hy) d ?_, hnot _ rfl⟩
    rw [recipe_script builddir root hall hn (by rw [hsplit]; simp [hy])]
    exact hd

end

/-! ### Two small builds -/

def sampleScripts : List Script :=
  [⟨"chapter04".toList, "401-creatingminlayout".toList⟩,
    ⟨"chapter05".toList, "502-gcc-pass1".toList⟩,
    ⟨"chapter07".toList, "701-changingowner".toList⟩,
    ⟨"chapter08".toList, "801-man-pages".toList⟩]

def goodMake (goal : Goal) (steps : ℕ) : List (Make.Action Text) :=
  .make goal.name :: List.replicate steps (.proceed true 1)

def runSample (builddir root : String) (scripts : List Script)
    (run : List (Make.Action Text)) : Make.State Text Command :=
  Make.exec Command.touches (buildMakefile builddir.toList root.toList scripts) run (Make.fresh 0)

theorem goodMake_goal {goal : Goal} {steps : ℕ} {g : Text} (h : .make g ∈ goodMake goal steps) :
    g ∈ Goal.all.map Goal.name := by
  rcases List.mem_cons.mp h with he | hm
  · cases he
    cases goal <;> simp [Goal.all]
  · cases (List.mem_replicate.mp hm).2

theorem build_in_order_sample :
    ∃ k, ∀ f, ((runSample "/mnt/build_dir" "/mnt/build_dir/jhalfs/lfs-commands/" sampleScripts
      (goodMake .setup 9 ++ goodMake .chroot 14)).files f).isSome ↔
        f ∈ (sampleScripts.take k).map Script.file :=
  ((build_in_order _ _ (by decide) (by decide)).2 _ 0 fun _ hg =>
    (List.mem_append.mp hg).elim goodMake_goal goodMake_goal).1

/- Made in their order, the goals stamp every script. -/
example : (sampleScripts.map fun s => ((runSample "/mnt/build_dir"
    "/mnt/build_dir/jhalfs/lfs-commands/" sampleScripts
    (goodMake .setup 20 ++ goodMake .luser 20 ++ goodMake .sudo 20 ++ goodMake .chroot 40)).files
      s.file).isSome) = [true, true, true, true] := by decide +kernel

/-- Two chapters with a script of the same name: the second recipe replaces the
first one, and the first script never runs. -/
def sameNames : List Script :=
  [⟨"chapter05".toList, "501-strip".toList⟩, ⟨"chapter06".toList, "501-strip".toList⟩]

theorem not_build_in_order_sameNames :
    (∀ s ∈ sameNames, (caseArm s.file).isSome) ∧
    (sameNames.map (Script.path "/lfs-commands/".toList)).Pairwise (· < ·) ∧
    ∃ later earlier, (runSample "/mnt" "/lfs-commands/" sameNames (goodMake .luser 6)).log =
        later ++ .started "501-strip".toList
          (scriptCommand "/mnt".toList "/lfs-commands/chapter06/501-strip".toList .luser) ::
            earlier ∧
      .finished "501-strip".toList
        (scriptCommand "/mnt".toList "/lfs-commands/chapter05/501-strip".toList .luser) ∉
          earlier := by
  refine ⟨by decide, by decide, [], _, rfl, ?_⟩
  decide

end HaoosLfs.Build
