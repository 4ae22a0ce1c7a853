import HaoosLfs.Blfs.Rules

/-!
# The prerequisites of the rules

When exactly the prerequisites of a rule are the required references of its
section, and each of them has a rule of its own.
-/

namespace HaoosLfs.Blfs
open Book Text Kconfiglib

def Makefile.prereqsOf (m : Makefile) (name : Text) : List Text :=
  (m.blocks.filter fun b => name ∈ b.heads).flatMap Block.prereqs

def Makefile.Closed (m : Makefile) : Prop :=
  ∀ b ∈ m.blocks, b.heads ≠ [] → ∀ d ∈ b.prereqs, d ∈ m.heads ∧ d ∈ m.chroot

/-- With a symbol, the configuration sets all symbols that it depends on. -/
def ClosedConfig (k : Kconfig) (config : Text) : Prop :=
  ∀ s ∈ k.uniqueDefinedSyms, s ∈ targets config →
    ∀ d ∈ exprItems (k.directDep s), d ∉ triNames → d ∈ targets config

instance (k : Kconfig) (config : Text) : Decidable (ClosedConfig k config) :=
  inferInstanceAs (Decidable (∀ s ∈ _, _ → ∀ d ∈ _, _ → _))

/-! ### What is printed -/

def Matched (book : BlfsBook) (name : Text) : Prop := ∃ e ∈ entries book, Hits name e.filename

theorem found_ne_nil {book : BlfsBook} {files : List Script}
    (hfiles : files.Perm (blfsScripts book))
    {name : Text} (hname : isName name) : found files name ≠ [] ↔ Matched book name := by
  have hperm := found_perm hfiles name
  have hlen : found files name = [] ↔ hitEntries book name = [] := by
    rw [← List.length_eq_zero_iff, hperm.length_eq, List.length_map, List.length_eq_zero_iff]
  rw [ne_eq, hlen]
  constructor
  · intro h
    obtain ⟨e, he⟩ := List.exists_mem_of_ne_nil _ h
    obtain ⟨hmem, hhit⟩ := (mem_hitEntries hname).mp he
    exact ⟨e, hmem, hhit⟩
  · rintro ⟨e, hmem, hhit⟩
    exact List.ne_nil_of_mem ((mem_hitEntries hname).mpr ⟨hmem, hhit⟩)

theorem mem_found_map {files : List Script} {name d : Text} :
    d ∈ (found files name).map (fun _ => name) ↔ d = name ∧ found files name ≠ [] := by
  constructor
  · intro h
    obtain ⟨f, hf, rfl⟩ := List.mem_map.mp h
    exact ⟨rfl, List.ne_nil_of_mem hf⟩
  · rintro ⟨rfl, hne⟩
    obtain ⟨f, hf⟩ := List.exists_mem_of_ne_nil _ hne
    exact List.mem_map.mpr ⟨f, hf, rfl⟩

theorem mem_buildDepList {files : List Script} {e : Expr} {d : Text} :
    d ∈ buildDepList files e ↔ (d ∈ exprItems e ∧ d ≠ "y".toList) ∧ found files d ≠ [] := by
  unfold buildDepList findOrderName
  simp only [List.mem_flatMap, List.mem_filter, List.mem_dedup, decide_eq_true_eq, mem_found_map]
  constructor
  · rintro ⟨d', h, rfl, hne⟩
    exact ⟨h, hne⟩
  · rintro ⟨h, hne⟩
    exact ⟨d, h, rfl, hne⟩

theorem mem_built {book : BlfsBook} {config name : Text} :
    name ∈ built (bookKconfig book) config ↔
      name ∈ targets config ∧ ∃ e ∈ entries book, e.filename = name := by
  rw [built_eq, List.mem_filter, decide_eq_true_eq, mem_syms]

section Printed
variable {book : BlfsBook} {config : Text} {files : List Script}

theorem mem_heads {name : Text} : name ∈ (bookMakefile book config files).heads ↔
    name ∈ built (bookKconfig book) config ∧ found files name ≠ [] := by
  show name ∈ List.flatMap Block.heads (List.map _ _) ↔ _
  rw [List.flatMap_map, List.mem_flatMap]
  constructor
  · rintro ⟨t, ht, h⟩
    obtain ⟨rfl, hne⟩ := mem_found_map.mp h
    exact ⟨ht, hne⟩
  · rintro ⟨ht, hne⟩
    exact ⟨name, ht, mem_found_map.mpr ⟨rfl, hne⟩⟩

theorem mem_prereqsOf {name d : Text} : d ∈ (bookMakefile book config files).prereqsOf name ↔
    (name ∈ built (bookKconfig book) config ∧ found files name ≠ []) ∧
      d ∈ buildDepList files ((bookKconfig book).directDep name) := by
  show d ∈ List.flatMap Block.prereqs (List.filter _ (List.map _ _)) ↔ _
  simp only [List.mem_flatMap, List.mem_filter, List.mem_map, decide_eq_true_eq]
  constructor
  · rintro ⟨b, ⟨⟨t, ht, rfl⟩, hhead⟩, hd⟩
    obtain ⟨rfl, hne⟩ := mem_found_map.mp hhead
    exact ⟨⟨ht, hne⟩, hd⟩
  · rintro ⟨⟨ht, hne⟩, hd⟩
    exact ⟨_, ⟨⟨name, ht, rfl⟩, mem_found_map.mpr ⟨rfl, hne⟩⟩, hd⟩

theorem closed_iff : (bookMakefile book config files).Closed ↔
    ∀ name d, d ∈ (bookMakefile book config files).prereqsOf name →
      d ∈ (bookMakefile book config files).heads := by
  constructor
  · intro h name d hd
    obtain ⟨b, hb, hdb⟩ := List.mem_flatMap.mp hd
    obtain ⟨hmem, hhead⟩ := List.mem_filter.mp hb
    exact (h b hmem (List.ne_nil_of_mem (of_decide_eq_true hhead)) d hdb).1
  · intro h b hb hne d hd
    obtain ⟨t, ht⟩ := List.exists_mem_of_ne_nil _ hne
    have hd' : d ∈ (bookMakefile book config files).prereqsOf t :=
      List.mem_flatMap.mpr ⟨b, List.mem_filter.mpr ⟨hb, decide_eq_true ht⟩, hd⟩
    exact ⟨h t d hd', h t d hd'⟩

end Printed

/-! ### The dependencies of a symbol -/

theorem foldl_makeAnd {names : List Text} (h : ∀ l ∈ names, SymOk l) {e : Expr} (hy : e ≠ .y)
    (hn : e ≠ .n) :
    (names.foldl (fun e l => makeAnd e (linkExpr l)) e ≠ .y ∧
      names.foldl (fun e l => makeAnd e (linkExpr l)) e ≠ .n) ∧
      exprItems (names.foldl (fun e l => makeAnd e (linkExpr l)) e) = exprItems e ++ names := by
  induction names generalizing e with
  | nil => exact ⟨⟨hy, hn⟩, (List.append_nil _).symm⟩
  | cons l names ih =>
    have hl := (h l List.mem_cons_self).2
    have hm : l ≠ "m".toList := fun e => hl (e ▸ by decide)
    have hand : makeAnd e (linkExpr l) = .and e (.sym l) := by
      rw [linkExpr, if_neg hm, if_neg hl, makeAnd, if_neg hy, if_neg nofun, if_neg]
      rintro (h | h)
      · exact hn h
      · cases h
    obtain ⟨hne, hitems⟩ := ih (fun l hl => h l (List.mem_cons_of_mem _ hl))
      (e := .and e (.sym l)) nofun nofun
    rw [List.foldl_cons, hand]
    refine ⟨hne, ?_⟩
    rw [hitems]
    simp [exprItems]

theorem depExpr_items {names : List Text} (h : ∀ l ∈ names, SymOk l) :
    depExpr names ≠ .n ∧ (depExpr names = .y ↔ names = []) ∧
      (names ≠ [] → exprItems (depExpr names) = names) := by
  cases names with
  | nil => exact ⟨nofun, ⟨fun _ => rfl, fun _ => rfl⟩, fun h => absurd rfl h⟩
  | cons l names =>
    have hl := (h l List.mem_cons_self).2
    have hm : l ≠ "m".toList := fun e => hl (e ▸ by decide)
    have hfirst : makeAnd .y (linkExpr l) = .sym l := by
      rw [linkExpr, if_neg hm, if_neg hl, makeAnd, if_pos rfl]
    have hfold := foldl_makeAnd (fun l hl => h l (List.mem_cons_of_mem _ hl)) (e := .sym l)
      nofun nofun
    unfold depExpr
    rw [List.foldl_cons, hfirst]
    refine ⟨hfold.1.2, ⟨fun hy => absurd hy hfold.1.1, nofun⟩, fun _ => ?_⟩
    rw [hfold.2]
    rfl

/-- The symbols that a package depends on: with several sections of one
identifier, those of all of them, or none when one of them requires nothing. -/
theorem mem_directDep {book : BlfsBook} {name d : Text}
    (hname : ∃ e ∈ entries book, e.filename = name)
    (h : ∀ e ∈ entries book, e.filename = name → ∀ l ∈ dependencies e.body, SymOk l) :
    d ∈ exprItems ((bookKconfig book).directDep name) ∧ d ≠ "y".toList ↔
      (∀ e ∈ entries book, e.filename = name → dependencies e.body ≠ []) ∧
        ∃ e ∈ entries book, e.filename = name ∧ d ∈ dependencies e.body := by
  have hne : (bookKconfig book).symNodes name ≠ [] := by
    obtain ⟨e, he, hen⟩ := hname
    exact List.ne_nil_of_mem (mem_symNodes.mpr ⟨e, he, hen, rfl⟩)
  have hdeps : ∀ node ∈ (bookKconfig book).symNodes name, node.dep ≠ .n := by
    intro node hnode
    obtain ⟨e, he, hen, rfl⟩ := mem_symNodes.mp hnode
    exact (depExpr_items (h e he hen)).1
  rw [exprItems_directDep hne hdeps]
  by_cases hy : ∃ node ∈ (bookKconfig book).symNodes name, node.dep = .y
  · rw [if_pos hy]
    obtain ⟨node, hnode, hdep⟩ := hy
    obtain ⟨e, he, hen, rfl⟩ := mem_symNodes.mp hnode
    have hnil := (depExpr_items (h e he hen)).2.1.mp hdep
    constructor
    · rintro ⟨hd, hdy⟩
      exact absurd (List.mem_singleton.mp hd) hdy
    · rintro ⟨hall, -⟩
      exact absurd hnil (hall e he hen)
  · rw [if_neg hy, List.mem_flatMap]
    have hall : ∀ e ∈ entries book, e.filename = name → dependencies e.body ≠ [] := by
      intro e he hen hnil
      exact hy ⟨_, mem_symNodes.mpr ⟨e, he, hen, rfl⟩, (depExpr_items (h e he hen)).2.1.mpr hnil⟩
    have hitems : ∀ e ∈ entries book, e.filename = name →
        exprItems (entryNode e).dep = dependencies e.body :=
      fun e he hen => (depExpr_items (h e he hen)).2.2 (hall e he hen)
    constructor
    · rintro ⟨⟨node, hnode, hd⟩, -⟩
      obtain ⟨e, he, hen, rfl⟩ := mem_symNodes.mp hnode
      rw [hitems e he hen] at hd
      exact ⟨hall, e, he, hen, hd⟩
    · rintro ⟨-, e, he, hen, hd⟩
      refine ⟨⟨_, mem_symNodes.mpr ⟨e, he, hen, rfl⟩, by rw [hitems e he hen]; exact hd⟩, ?_⟩
      rintro rfl
      exact (h e he hen _ hd).2 (by decide)

/-! ### The rules of a book -/

/-- The required references of a section are all written, they lead to sections with
a rule, and no other section of its identifier writes something else. -/
structure Written (book : BlfsBook) (e : Entry) : Prop where
  matched : Matched book e.filename
  same : ∀ e' ∈ entries book, e'.filename = e.filename →
    dependencies e'.body ≠ [] ∧ dependencies e'.body ⊆ requiredLinkends e.body
  link : ∀ l ∈ requiredLinkends e.body,
    (∃ e' ∈ entries book, e'.filename = e.filename ∧ l ∈ dependencies e'.body) ∧
      (∃ e' ∈ entries book, e'.filename = l) ∧ Matched book l

/-- A Makefile is generated, its rules are closed, and the prerequisites of each
selected section are its required references. -/
def PrereqsExact (book : BlfsBook) (config : Text) (files : List Script) : Prop :=
  ∃ m, blfsPy (cmdTxt book) config files = some m ∧ m.Closed ∧
    ∀ e ∈ entries book, e.filename ∈ targets config →
      ∀ d, d ∈ m.prereqsOf e.filename ↔ d ∈ requiredLinkends e.body

theorem mem_requiredLinkends {book : BlfsBook} (hloads : Loads book) {e : Entry}
    (he : e ∈ entries book) {l : Text} (hl : l ∈ dependencies e.body) :
    l ∈ requiredLinkends e.body := by
  rcases dependencies_subset hl with hnil | hmem
  · exact absurd hnil ((hloads.entryOk e he).2 l hl).1
  · exact hmem

theorem symOk_of_entry {book : BlfsBook} (hloads : Loads book) {l : Text}
    (h : ∃ e ∈ entries book, e.filename = l) : SymOk l := by
  obtain ⟨e, he, rfl⟩ := h
  exact (hloads.entryOk e he).1

section Run
variable {book : BlfsBook} {config : Text} {files : List Script}

theorem mem_prereqsOf_entry (hfiles : files.Perm (blfsScripts book))
    {e : Entry} (he : e ∈ entries book) (ht : e.filename ∈ targets config)
    (hsym : ∀ e' ∈ entries book, e'.filename = e.filename →
      ∀ l ∈ dependencies e'.body, SymOk l) {d : Text} :
    d ∈ (bookMakefile book config files).prereqsOf e.filename ↔ Matched book e.filename ∧
      (∀ e' ∈ entries book, e'.filename = e.filename → dependencies e'.body ≠ []) ∧
        (∃ e' ∈ entries book, e'.filename = e.filename ∧ d ∈ dependencies e'.body) ∧
          found files d ≠ [] := by
  rw [mem_prereqsOf, mem_buildDepList, mem_directDep ⟨e, he, rfl⟩ hsym, mem_built,
    found_ne_nil hfiles (isName_filename he)]
  constructor
  · rintro ⟨⟨-, hmatch⟩, ⟨hne, hdep⟩, hfound⟩
    exact ⟨hmatch, hne, hdep, hfound⟩
  · rintro ⟨hmatch, hne, hdep, hfound⟩
    exact ⟨⟨⟨ht, e, he, rfl⟩, hmatch⟩, ⟨hne, hdep⟩, hfound⟩

theorem written_of_exact (hloads : Loads book) (hfiles : files.Perm (blfsScripts book))
    (hclosed : (bookMakefile book config files).Closed)
    (hexact : ∀ e ∈ entries book, e.filename ∈ targets config →
      ∀ d, d ∈ (bookMakefile book config files).prereqsOf e.filename ↔
        d ∈ requiredLinkends e.body)
    {e : Entry} (he : e ∈ entries book) (ht : e.filename ∈ targets config)
    (hne : requiredLinkends e.body ≠ []) : Written book e := by
  rw [closed_iff] at hclosed
  -- a required reference of a selected section has a rule
  have hlink : ∀ e' ∈ entries book, e'.filename = e.filename → ∀ l ∈ requiredLinkends e'.body,
      (∃ e'' ∈ entries book, e''.filename = l) ∧ found files l ≠ [] := by
    intro e' he' hid l hl
    have hd := (hexact e' he' (hid ▸ ht) l).mpr hl
    obtain ⟨hbuilt, hfound⟩ := mem_heads.mp (hclosed _ l hd)
    exact ⟨(mem_built.mp hbuilt).2, hfound⟩
  have hsym : ∀ e' ∈ entries book, e'.filename = e.filename →
      ∀ l ∈ dependencies e'.body, SymOk l := fun e' he' hid l hl =>
    symOk_of_entry hloads (hlink e' he' hid l (mem_requiredLinkends hloads he' hl)).1
  have hpre : ∀ d, d ∈ (bookMakefile book config files).prereqsOf e.filename ↔ _ :=
    fun d => mem_prereqsOf_entry hfiles he ht hsym
  obtain ⟨l, hl⟩ := List.exists_mem_of_ne_nil _ hne
  obtain ⟨hmatch, hdeps, -, -⟩ := (hpre l).mp ((hexact e he ht l).mpr hl)
  refine ⟨hmatch, fun e' he' hid => ⟨hdeps e' he' hid, fun d hd => ?_⟩, fun l hl => ?_⟩
  · -- sections of one identifier have one rule
    have hd' := (hexact e' he' (hid ▸ ht) d).mpr (mem_requiredLinkends hloads he' hd)
    rw [hid] at hd'
    exact (hexact e he ht d).mp hd'
  · obtain ⟨hentry, hfound⟩ := hlink e he rfl l hl
    obtain ⟨-, -, hdep, -⟩ := (hpre l).mp ((hexact e he ht l).mpr hl)
    exact ⟨hdep, hentry, (found_ne_nil hfiles (requiredLinkends_name he hl)).mp hfound⟩

theorem symOk_of_written (hloads : Loads book)
    (hwritten : ∀ e ∈ entries book, e.filename ∈ targets config → requiredLinkends e.body ≠ [] →
      Written book e)
    {e : Entry} (ht : e.filename ∈ targets config) :
    ∀ e' ∈ entries book, e'.filename = e.filename → ∀ l ∈ dependencies e'.body, SymOk l := by
  intro e' he' hid l hl
  have hreq := mem_requiredLinkends hloads he' hl
  have hw := hwritten e' he' (hid ▸ ht) (List.ne_nil_of_mem hreq)
  exact symOk_of_entry hloads (hw.link l hreq).2.1

theorem exact_of_written (hloads : Loads book) (hfiles : files.Perm (blfsScripts book))
    (hwritten : ∀ e ∈ entries book, e.filename ∈ targets config → requiredLinkends e.body ≠ [] →
      Written book e)
    {e : Entry} (he : e ∈ entries book) (ht : e.filename ∈ targets config) (d : Text) :
    d ∈ (bookMakefile book config files).prereqsOf e.filename ↔ d ∈ requiredLinkends e.body := by
  rw [mem_prereqsOf_entry hfiles he ht (symOk_of_written hloads hwritten ht)]
  constructor
  · rintro ⟨-, hdeps, ⟨e', he', hid, hd⟩, -⟩
    -- the section itself writes something, so it has required references
    obtain ⟨l, hl⟩ := List.exists_mem_of_ne_nil _ (hdeps e he rfl)
    have hne := List.ne_nil_of_mem (mem_requiredLinkends hloads he hl)
    exact ((hwritten e he ht hne).same e' he' hid).2 hd
  · intro hd
    have hw := hwritten e he ht (List.ne_nil_of_mem hd)
    obtain ⟨hdep, hentry, hmatch⟩ := hw.link d hd
    exact ⟨hw.matched, fun e' he' hid => (hw.same e' he' hid).1, hdep,
      (found_ne_nil hfiles (requiredLinkends_name he hd)).mpr hmatch⟩

/-- The rules are closed, and the prerequisites of each selected package are its
required references, exactly when kconfiglib reads `cmd.txt` and each selected
section with required references has them written. -/
theorem prereqs_exact_iff (hfiles : files.Perm (blfsScripts book))
    (hconfig : ∀ k, load (cmdTxt book) = some k → ClosedConfig k config) :
    PrereqsExact book config files ↔
      Loads book ∧ ∀ e ∈ entries book, e.filename ∈ targets config →
        requiredLinkends e.body ≠ [] → Written book e := by
  constructor
  · rintro ⟨m, hm, hclosed, hexact⟩
    obtain ⟨hloads, rfl⟩ := blfsPy_cmdTxt.mp hm
    exact ⟨hloads, fun e he ht hne => written_of_exact hloads hfiles hclosed hexact he ht hne⟩
  · rintro ⟨hloads, hwritten⟩
    refine ⟨_, blfsPy_cmdTxt.mpr ⟨hloads, rfl⟩, closed_iff.mpr fun name d hd => ?_,
      fun e he ht => exact_of_written hloads hfiles hwritten he ht⟩
    obtain ⟨⟨hbuilt, -⟩, hdep⟩ := mem_prereqsOf.mp hd
    obtain ⟨ht, e, he, rfl⟩ := mem_built.mp hbuilt
    obtain ⟨hitem, hfound⟩ := mem_buildDepList.mp hdep
    have hreq := (exact_of_written hloads hfiles hwritten he ht d).mp hd
    have hentry := ((hwritten e he ht (List.ne_nil_of_mem hreq)).link d hreq).2.1
    have htarget := hconfig _ (load_cmdTxt.mpr ⟨hloads, rfl⟩) e.filename (mem_syms.mpr ⟨e, he, rfl⟩)
      ht d hitem.1 (symOk_of_entry hloads hentry).2
    exact mem_heads.mpr ⟨mem_built.mpr ⟨htarget, hentry⟩, hfound⟩

end Run

theorem prereqs_exact_pngBook :
    PrereqsExact pngBook "zlib=y\nlibpng=y\n".toList (blfsScripts pngBook) := by
  have hconfig : ∀ k, load (cmdTxt pngBook) = some k →
      ClosedConfig k "zlib=y\nlibpng=y\n".toList := by
    intro k hk
    rw [(load_cmdTxt.mp hk).2]
    decide
  have hlast : ∀ e ∈ entries pngBook, e.filename.getLast?.any Regex.wordChar := by decide
  have hmatch : ∀ e ∈ entries pngBook, Matched pngBook e.filename :=
    fun e he => ⟨e, he, hits_self.mpr (hlast e he)⟩
  have hsame : ∀ e ∈ entries pngBook, requiredLinkends e.body ≠ [] → ∀ e' ∈ entries pngBook,
      e'.filename = e.filename →
        dependencies e'.body ≠ [] ∧ dependencies e'.body ⊆ requiredLinkends e.body := by decide
  have hlink : ∀ e ∈ entries pngBook, ∀ l ∈ requiredLinkends e.body,
      (∃ e' ∈ entries pngBook, e'.filename = e.filename ∧ l ∈ dependencies e'.body) ∧
        ∃ e' ∈ entries pngBook, e'.filename = l := by decide
  refine (prereqs_exact_iff (List.Perm.refl _) hconfig).mpr ⟨loads_pngBook, fun e he _ hne => ?_⟩
  refine ⟨hmatch e he, hsame e he hne, fun l hl => ⟨(hlink e he l hl).1, (hlink e he l hl).2, ?_⟩⟩
  obtain ⟨e', he', rfl⟩ := (hlink e he l hl).2
  exact hmatch e' he'

/-- The identifier `lib-` does not match its own script. -/
def hyphenBook : BlfsBook := chapterBook [("lib-", []), ("app", ["lib-"])] (by decide) (by decide)

/-- The reference is not a child of the required paragraph. -/
def phraseBook : BlfsBook where
  doc := .node (.element "chapter" [("id", "general".toList)])
    (.node (.element "sect1" [("id", "zlib".toList)]) (commandsOf .nil)
      (.node (.element "sect1" [("id", "libpng".toList)])
        (.node (.element "para" [("role", "required".toList)])
          (.node (.element "phrase" [])
            (.node (.element "xref" [("linkend", "zlib".toList)]) .nil .nil) .nil)
          (commandsOf .nil)) .nil)) .nil
  ids := by decide
  linkends := by decide

theorem not_prereqs_exact :
    (ClosedConfig (bookKconfig hyphenBook) "lib-=y\napp=y\n".toList ∧
      ¬ PrereqsExact hyphenBook "lib-=y\napp=y\n".toList (blfsScripts hyphenBook)) ∧
    ClosedConfig (bookKconfig phraseBook) "zlib=y\nlibpng=y\n".toList ∧
      ¬ PrereqsExact phraseBook "zlib=y\nlibpng=y\n".toList (blfsScripts phraseBook) := by
  refine ⟨⟨by decide, ?_⟩, ⟨by decide, ?_⟩⟩
  · rintro ⟨m, hm, -, h⟩
    obtain ⟨-, rfl⟩ := blfsPy_cmdTxt.mp hm
    have happ := h ⟨"general".toList, 1, 2, "app".toList,
      requiredPara ["lib-"] (commandsOf .nil)⟩ (by decide) (by decide) "lib-".toList
    exact absurd (happ.mpr (by decide)) (by decide)
  · rintro ⟨m, hm, -, h⟩
    obtain ⟨-, rfl⟩ := blfsPy_cmdTxt.mp hm
    have hpng : ∃ e ∈ entries phraseBook,
        e.filename ∈ targets "zlib=y\nlibpng=y\n".toList ∧
          "zlib".toList ∈ requiredLinkends e.body ∧ "zlib".toList ∉
            (bookMakefile phraseBook "zlib=y\nlibpng=y\n".toList
              (blfsScripts phraseBook)).prereqsOf e.filename := by decide
    obtain ⟨e, he, ht, hreq, hno⟩ := hpng
    exact absurd ((h e he ht "zlib".toList).mpr hreq) hno

end HaoosLfs.Blfs
