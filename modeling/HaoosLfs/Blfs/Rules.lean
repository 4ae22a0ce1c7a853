import HaoosLfs.Blfs.BlfsPy
import HaoosLfs.Lib.Lists

/-!
# One rule for each package

When exactly the generated Makefile has one rule for each selected package, whose
recipe is the script of that package.
-/

namespace HaoosLfs.Blfs
open Book Text Kconfiglib

def Makefile.recipeOf (m : Makefile) (name : Text) : List Script :=
  (m.blocks.filter fun b => name ∈ b.heads).flatMap Block.recipe

def Makefile.heads (m : Makefile) : List Text := m.blocks.flatMap Block.heads

/-! ### The blocks of the program -/

def bookMakefile (book : BlfsBook) (config : Text) (files : List Script) : Makefile :=
  let blocks := (built (bookKconfig book) config).map (buildMakefileNode (bookKconfig book) files)
  ⟨blocks, blocks.flatMap Block.heads⟩

theorem blfsPy_cmdTxt {book : BlfsBook} {config : Text} {files : List Script} {m : Makefile} :
    blfsPy (cmdTxt book) config files = some m ↔
      Loads book ∧ m = bookMakefile book config files := by
  unfold blfsPy
  rw [Option.map_eq_some_iff]
  constructor
  · rintro ⟨k, hk, rfl⟩
    obtain ⟨hloads, rfl⟩ := load_cmdTxt.mp hk
    exact ⟨hloads, rfl⟩
  · rintro ⟨hloads, rfl⟩
    exact ⟨bookKconfig book, load_cmdTxt.mpr ⟨hloads, rfl⟩, rfl⟩

theorem built_eq (k : Kconfig) (config : Text) :
    built k config = (targets config).filter fun t => t ∈ k.uniqueDefinedSyms := by
  unfold built
  induction targets config with
  | nil => rfl
  | cons t ts ih =>
    have hcount := List.Nodup.count (nodup_uniqueDefinedSyms k) (a := t)
    have hsame : (fun s : Text => decide (t = s)) = fun s => decide (s = t) := by
      funext s
      exact decide_eq_decide.mpr eq_comm
    rw [List.flatMap_cons, ih, hsame, List.filter_eq, hcount]
    by_cases h : t ∈ k.uniqueDefinedSyms
    · simp [h]
    · simp [h]

theorem count_heads {k : Kconfig} {files : List Script} {name : Text} (names : List Text) :
    ((names.map (buildMakefileNode k files)).flatMap Block.heads).count name =
      names.count name * (found files name).length := by
  induction names with
  | nil => simp
  | cons t names ih =>
    rw [List.map_cons, List.flatMap_cons, List.count_append, ih]
    by_cases h : t = name
    · subst h
      simp [buildMakefileNode, buildTarget, Nat.add_mul, Nat.add_comm]
    · simp [buildMakefileNode, buildTarget, h, List.count_replicate]

theorem recipeOf_blocks {k : Kconfig} {files : List Script} {name : Text} (names : List Text) :
    ((names.map (buildMakefileNode k files)).filter fun b => name ∈ b.heads).flatMap
        Block.recipe = (List.replicate (names.count name) (found files name)).flatten := by
  induction names with
  | nil => simp
  | cons t names ih =>
    rw [List.map_cons, List.filter_cons]
    by_cases h : t = name
    · subst h
      by_cases hf : found files t = []
      · simp [ih, buildMakefileNode, buildTarget, hf]
      · simp [ih, buildMakefileNode, buildTarget, buildRunCmd, hf, List.replicate_succ]
    · simp [ih, buildMakefileNode, buildTarget, h, Ne.symm h]

/-! ### The files of a name -/

theorem script_filename {e e' : Entry} (h : e.script = e'.script) : e.filename = e'.filename := by
  have hdash : ∀ n, '-' ∉ decimal n := not_mem_decimal (by decide)
  have h1 := congrArg Script.file h
  rw [script_file, script_file] at h1
  rcases append_cons_eq h1 (hdash _) with ⟨-, h2⟩ | ⟨z, hz, -⟩
  · rcases append_cons_eq h2 (hdash _) with ⟨-, h3⟩ | ⟨z, hz, -⟩
    · exact h3
    · exact absurd (by rw [hz]; simp) (hdash e.position)
  · exact absurd (by rw [hz]; simp) (hdash e.chapNum)

theorem hits_self {name : Text} : Hits name name ↔ name.getLast?.any Regex.wordChar := by
  constructor
  · rintro ⟨p, w, hname, -, hw, hlast⟩
    have hlen := hw.length_eq
    have hp : p = [] := by
      rw [hname, List.length_append] at hlen
      exact List.eq_nil_of_length_eq_zero (by omega)
    subst hp
    rw [hname]
    exact hlast
  · intro h
    exact ⟨[], name, rfl, .inl rfl, List.forall₂_same.mpr fun c _ => .inr rfl, h⟩

def hitEntries (book : BlfsBook) (name : Text) : List Entry :=
  (entries book).filter fun e => Regex.search (namePattern name) e.script.file

theorem mem_hitEntries {book : BlfsBook} {name : Text} (hname : isName name) {e : Entry} :
    e ∈ hitEntries book name ↔ e ∈ entries book ∧ Hits name e.filename := by
  unfold hitEntries
  rw [List.mem_filter]
  exact and_congr_right fun he => search_script hname (isName_filename he)

theorem found_perm {book : BlfsBook} {files : List Script} (h : files.Perm (blfsScripts book))
    (name : Text) : (found files name).Perm ((hitEntries book name).map Entry.script) := by
  unfold found hitEntries
  have hmap : ((entries book).filter
      fun e => Regex.search (namePattern name) e.script.file).map Entry.script =
        (blfsScripts book).filter fun f => Regex.search (namePattern name) f.file := by
    rw [blfsScripts, List.filter_map]
    rfl
  rw [hmap]
  exact h.filter _

/-- With distinct identifiers, a name finds just its own script exactly when it
matches itself and no other identifier. -/
theorem found_eq_singleton {book : BlfsBook} {files : List Script}
    (hids : ((entries book).map Entry.filename).Nodup) (hfiles : files.Perm (blfsScripts book))
    {e : Entry} (he : e ∈ entries book) :
    found files e.filename = [e.script] ↔ e.filename.getLast?.any Regex.wordChar ∧
      ∀ e' ∈ entries book, Hits e.filename e'.filename → e' = e := by
  have hname := isName_filename he
  have hnodup : (hitEntries book e.filename).Nodup := (List.Nodup.of_map _ hids).filter _
  have hperm := found_perm hfiles e.filename
  constructor
  · intro h
    rw [h] at hperm
    have hmap := List.singleton_perm.mp hperm
    obtain ⟨x, hx, hscript⟩ := List.map_eq_singleton_iff.mp hmap.symm
    have hmem : x ∈ entries book ∧ Hits e.filename x.filename :=
      (mem_hitEntries hname).mp (by rw [hx]; exact List.mem_singleton_self x)
    have hxe : x = e :=
      List.inj_on_of_nodup_map hids hmem.1 he (script_filename hscript)
    subst hxe
    refine ⟨hits_self.mp hmem.2, fun e' he' hhit => ?_⟩
    have h' := (mem_hitEntries hname).mpr ⟨he', hhit⟩
    rw [hx] at h'
    exact List.mem_singleton.mp h'
  · rintro ⟨hlast, hother⟩
    have hself : e ∈ hitEntries book e.filename :=
      (mem_hitEntries hname).mpr ⟨he, hits_self.mpr hlast⟩
    have hone : hitEntries book e.filename = [e] := by
      refine List.perm_singleton.mp ((List.perm_ext_iff_of_nodup hnodup (by simp)).mpr fun x => ?_)
      rw [List.mem_singleton]
      constructor
      · intro hx
        obtain ⟨hxe, hhit⟩ := (mem_hitEntries hname).mp hx
        exact hother x hxe hhit
      · rintro rfl
        exact hself
    rw [hone] at hperm
    exact List.perm_singleton.mp hperm

/-! ### The rule of a package -/

/-- A Makefile is generated, and in it every selected package has one rule, whose
recipe is its script. -/
def OneRuleEach (book : BlfsBook) (config : Text) (files : List Script) : Prop :=
  ∃ m, blfsPy (cmdTxt book) config files = some m ∧
    ∀ e ∈ entries book, e.filename ∈ targets config → m.heads.count e.filename = 1 ∧
      m.recipeOf e.filename = [e.script] ∧ m.chroot.count e.filename = 1

theorem one_rule_iff {book : BlfsBook} {config : Text} {files : List Script} {m : Makefile}
    (hids : ((entries book).map Entry.filename).Nodup) (hfiles : files.Perm (blfsScripts book))
    (hm : blfsPy (cmdTxt book) config files = some m) {e : Entry} (he : e ∈ entries book) :
    m.heads.count e.filename = 1 ∧ m.recipeOf e.filename = [e.script] ∧
        m.chroot.count e.filename = 1 ↔
      (targets config).count e.filename = 1 ∧ e.filename.getLast?.any Regex.wordChar ∧
        ∀ e' ∈ entries book, Hits e.filename e'.filename → e' = e := by
  obtain ⟨-, rfl⟩ := blfsPy_cmdTxt.mp hm
  have hsym : e.filename ∈ (bookKconfig book).uniqueDefinedSyms := mem_syms.mpr ⟨e, he, rfl⟩
  have hcount : (built (bookKconfig book) config).count e.filename =
      (targets config).count e.filename := by
    rw [built_eq]
    exact List.count_filter (decide_eq_true hsym)
  rw [← found_eq_singleton hids hfiles he, ← hcount]
  simp only [bookMakefile, Makefile.heads, Makefile.recipeOf, count_heads, recipeOf_blocks]
  constructor
  · rintro ⟨hheads, hrecipe, -⟩
    have hone := Nat.eq_one_of_mul_eq_one_right hheads
    rw [hone] at hrecipe
    exact ⟨hone, by simpa using hrecipe⟩
  · rintro ⟨hone, hfound⟩
    rw [hone, hfound]
    simp

/-- Every selected package has one rule, whose recipe is its script, exactly when
kconfiglib reads `cmd.txt`, the configuration sets each package once, and the
pattern of each package matches its own identifier and no other. -/
theorem one_rule_each_iff {book : BlfsBook} {config : Text} {files : List Script}
    (hids : ((entries book).map Entry.filename).Nodup) (hfiles : files.Perm (blfsScripts book)) :
    OneRuleEach book config files ↔
      Loads book ∧ ∀ e ∈ entries book, e.filename ∈ targets config →
        (targets config).count e.filename = 1 ∧ e.filename.getLast?.any Regex.wordChar ∧
          ∀ e' ∈ entries book, Hits e.filename e'.filename → e' = e := by
  constructor
  · rintro ⟨m, hm, h⟩
    exact ⟨(blfsPy_cmdTxt.mp hm).1,
      fun e he ht => (one_rule_iff hids hfiles hm he).mp (h e he ht)⟩
  · rintro ⟨hloads, h⟩
    have hm := blfsPy_cmdTxt.mpr ⟨hloads, Eq.refl (bookMakefile book config files)⟩
    exact ⟨_, hm, fun e he ht => (one_rule_iff hids hfiles hm he).mpr (h e he ht)⟩

def pngBook : BlfsBook :=
  chapterBook [("zlib", []), ("libpng", ["zlib"])] (by decide) (by decide)

theorem loads_pngBook : Loads pngBook :=
  (load_cmdTxt (k := bookKconfig pngBook)).mp (by decide) |>.1

theorem one_rule_each_pngBook :
    OneRuleEach pngBook "zlib=y\nlibpng=y\n".toList (blfsScripts pngBook) := by
  have honly : ∀ e ∈ entries pngBook, ∀ e' ∈ entries pngBook,
      Regex.search (namePattern e.filename) e'.script.file → e' = e := by decide
  refine (one_rule_each_iff (by decide) (List.Perm.refl _)).mpr ⟨loads_pngBook, fun e he _ => ?_⟩
  have hself : ∀ e ∈ entries pngBook,
      (targets "zlib=y\nlibpng=y\n".toList).count e.filename = 1 ∧
        e.filename.getLast?.any Regex.wordChar := by decide
  refine ⟨(hself e he).1, (hself e he).2, fun e' he' hhit => honly e he e' he' ?_⟩
  exact (search_script (isName_filename he) (isName_filename he')).mpr hhit

/-- `foo` also matches the end of `bar1-foo`. -/
def fooBook : BlfsBook := chapterBook [("foo", []), ("bar1-foo", [])] (by decide) (by decide)

theorem not_one_rule_each_fooBook : ((entries fooBook).map Entry.filename).Nodup ∧
    ¬ OneRuleEach fooBook "foo=y\n".toList (blfsScripts fooBook) := by
  refine ⟨by decide, ?_⟩
  rintro ⟨m, hm, h⟩
  have hrun : blfsPy (cmdTxt fooBook) "foo=y\n".toList (blfsScripts fooBook) =
      some ⟨[⟨"foo".toList, ["foo".toList, "foo".toList], [], blfsScripts fooBook⟩],
        ["foo".toList, "foo".toList]⟩ := by decide
  rw [hrun] at hm
  obtain rfl := Option.some.inj hm
  revert h
  decide

end HaoosLfs.Blfs
