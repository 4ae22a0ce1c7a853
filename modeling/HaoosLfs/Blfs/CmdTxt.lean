import HaoosLfs.Blfs.BlfsXsl
import HaoosLfs.Kconfiglib.Load

/-!
# Reading `cmd.txt` back

What kconfiglib makes of the lines that `blfs.xsl` writes: each entry becomes one
menu node, whose dependency is the conjunction of its `depends on` lines.
-/

namespace HaoosLfs.Blfs
open Book Text Kconfiglib

/-! ### One line -/

def Line.tokens : Line → List Token
  | .blank => []
  | .mainMenu => [.keyword .menu, .str "BLFS configuration".toList]
  | .mainEndmenu => [.keyword .endmenu]
  | .menu chapter => [.keyword .menu, .str ("chapter-".toList ++ chapter)]
  | .endmenu => [.keyword .endmenu]
  | .config name => [.keyword .config, wordToken name]
  | .bool name => [.keyword .bool, .str name]
  | .dependsOn name =>
    [.keyword .depends, .keyword .on] ++ if name = [] then [] else [wordToken name]
  | .defaultY => [.keyword .default, .const "y".toList]

/-- What stands in a line is a name, or a missing reference. -/
def Line.wellFormed : Line → Prop
  | .menu name | .config name | .bool name => isName name
  | .dependsOn name => name = [] ∨ isName name
  | _ => True

theorem isName_ne_nil {name : Text} (h : isName name) : name ≠ [] := by
  rintro rfl
  cases h

theorem not_mem_name {name : Text} (h : isName name) {c : Char} (hc : nameChar c = false) :
    c ∉ name := by
  intro hm
  have := isName_nameChar h c hm
  rw [hc] at this
  cases this

theorem symChar_name {name : Text} (h : isName name) : name.all symChar := by
  apply List.all_eq_true.mpr
  intro c hc
  have hn := isName_nameChar h c hc
  simp only [nameChar, symChar, Bool.or_eq_true, decide_eq_true_eq] at hn ⊢
  tauto

theorem plain_name {name : Text} (h : isName name) : name.all plainChar := by
  apply List.all_eq_true.mpr
  intro c hc
  have h1 : c ≠ '$' := fun e => not_mem_name h (by decide) (e ▸ hc)
  have h2 : c ≠ '\\' := fun e => not_mem_name h (by decide) (e ▸ hc)
  simp [plainChar, h1, h2]

theorem dropWhile_space_name {name : Text} (h : isName name) (rest : Text) :
    (name ++ rest).dropWhile isSpace = name ++ rest := by
  cases name with
  | nil => cases h
  | cons c name =>
    have hn := isName_nameChar h c List.mem_cons_self
    have hc : isSpace c = false := by
      by_contra hs
      simp only [isSpace, Bool.not_eq_false, List.mem_cons, List.not_mem_nil, or_false,
        decide_eq_true_eq] at hs
      rcases hs with rfl | rfl | rfl | rfl | rfl | rfl <;> exact absurd hn (by decide)
    rw [List.cons_append, List.dropWhile_cons_of_neg (by rw [hc]; decide)]

theorem lexRest_name {fuel : ℕ} {prev : Token} {name : Text} (h : isName name)
    (hprev : takesString prev = false) :
    lexRest (fuel + 1) prev (name ++ ['\n']) = some [wordToken name] := by
  have hend : lexRest fuel (wordToken name) (['\n'].dropWhile isSpace) = some [] := by
    cases fuel <;> rfl
  rw [lexRest_word (isName_ne_nil h) (symChar_name h) rfl]
  simp only [hprev, Bool.false_and, Bool.false_eq_true, if_false, hend, Option.map_some]

theorem lexRest_string {fuel : ℕ} {prev : Token} {s : Text} (h : '"' ∉ s)
    (hprev : takesString prev = true) :
    lexRest (fuel + 1) prev ('"' :: (s ++ ['"', '\n'])) = some [.str s] := by
  have hend : lexRest fuel (.str s) (['\n'].dropWhile isSpace) = some [] := by
    cases fuel <;> rfl
  rw [lexRest_quoted h]
  simp only [hprev, if_true, hend, Option.map_some]

theorem lexLine_config {name : Text} (h : isName name) :
    lexLine ((Line.config name).text ++ ['\n']) = some (Line.config name).tokens := by
  have htext : (Line.config name).text ++ ['\n'] =
      ['\t'] ++ ("config".toList ++ ' ' :: (name ++ ['\n'])) := by
    show "\tconfig ".toList ++ name ++ ['\n'] = _
    rw [List.append_assoc]
    rfl
  have hplain : (['\t'] ++ ("config".toList ++ ' ' :: (name ++ ['\n']))).all plainChar := by
    simp [plain_name h, plainChar]
  rw [htext, lexLine_keyword (by decide) (by decide) (k := .config) (by decide) (by decide) hplain,
    dropWhile_space_name h, List.length_append, List.length_singleton, lexRest_name h (by decide),
    Option.map_some]
  rfl

theorem lexLine_bool {name : Text} (h : isName name) :
    lexLine ((Line.bool name).text ++ ['\n']) = some (Line.bool name).tokens := by
  have htext : (Line.bool name).text ++ ['\n'] =
      ['\t', '\t'] ++ ("bool".toList ++ ' ' :: '"' :: (name ++ ['"', '\n'])) := by
    show "\t\tbool \"".toList ++ name ++ "\"".toList ++ ['\n'] = _
    rw [List.append_assoc, List.append_assoc]
    rfl
  have hplain : (['\t', '\t'] ++ ("bool".toList ++ ' ' :: '"' :: (name ++ ['"', '\n']))).all
      plainChar := by
    simp [plain_name h, plainChar]
  have hspace : ('"' :: (name ++ ['"', '\n'])).dropWhile isSpace =
      '"' :: (name ++ ['"', '\n']) := List.dropWhile_cons_of_neg (by decide)
  rw [htext, lexLine_keyword (by decide) (by decide) (k := .bool) (by decide) (by decide) hplain,
    hspace, List.length_cons, lexRest_string (not_mem_name h (by decide)) (by decide),
    Option.map_some]
  rfl

theorem lexLine_menu {chapter : Text} (h : isName chapter) :
    lexLine ((Line.menu chapter).text ++ ['\n']) = some (Line.menu chapter).tokens := by
  obtain ⟨title, htitle⟩ : ∃ title, title = "chapter-".toList ++ chapter := ⟨_, rfl⟩
  have hquote : '"' ∉ title := by
    rw [htitle, List.mem_append, not_or]
    exact ⟨by decide, not_mem_name h (by decide)⟩
  have hall : title.all plainChar := by
    rw [htitle, List.all_append, plain_name h]
    decide
  have htext : (Line.menu chapter).text ++ ['\n'] =
      ['\t'] ++ ("menu".toList ++ ' ' :: '\t' :: '"' :: (title ++ ['"', '\n'])) := by
    show "\tmenu \t\"chapter-".toList ++ chapter ++ "\"".toList ++ ['\n'] = _
    rw [htitle, List.append_assoc, List.append_assoc, List.append_assoc]
    rfl
  have hplain : (['\t'] ++ ("menu".toList ++ ' ' :: '\t' :: '"' :: (title ++ ['"', '\n']))).all
      plainChar := by
    simp [hall, plainChar]
  have hspace : ('\t' :: '"' :: (title ++ ['"', '\n'])).dropWhile isSpace =
      '"' :: (title ++ ['"', '\n']) := by
    rw [List.dropWhile_cons_of_pos (by decide), List.dropWhile_cons_of_neg (by decide)]
  rw [htext, lexLine_keyword (by decide) (by decide) (k := .menu) (by decide) (by decide) hplain,
    hspace, List.length_cons, lexRest_string hquote (by decide), Option.map_some, htitle]
  rfl

theorem lexLine_dependsOn {name : Text} (h : name = [] ∨ isName name) :
    lexLine ((Line.dependsOn name).text ++ ['\n']) = some (Line.dependsOn name).tokens := by
  rcases h with rfl | h
  · decide
  · have htext : (Line.dependsOn name).text ++ ['\n'] = ['\t', '\t'] ++
        ("depends".toList ++ ' ' :: ("on".toList ++ ' ' :: (name ++ ['\n']))) := by
      show "\t\tdepends on ".toList ++ name ++ ['\n'] = _
      rw [List.append_assoc]
      rfl
    have hplain : (['\t', '\t'] ++ ("depends".toList ++
        ' ' :: ("on".toList ++ ' ' :: (name ++ ['\n'])))).all plainChar := by
      simp [plain_name h, plainChar]
    have hspace : ("on".toList ++ ' ' :: (name ++ ['\n'])).dropWhile isSpace =
        "on".toList ++ ' ' :: (name ++ ['\n']) := List.dropWhile_cons_of_neg (by decide)
    have hname : (' ' :: (name ++ ['\n'])).dropWhile isSpace = name ++ ['\n'] :=
      dropWhile_space_name h ['\n']
    have hfuel : ("on".toList ++ ' ' :: (name ++ ['\n'])).length = name.length + 2 + 1 + 1 := by
      simp
    have hon : (if takesString (.keyword .depends) && (getKeyword "on".toList).isNone then
        .str "on".toList else wordToken "on".toList) = Token.keyword .on := by decide
    rw [htext, lexLine_keyword (by decide) (by decide) (k := .depends) (by decide) (by decide)
      hplain, hspace, hfuel, lexRest_word (by decide) (by decide) rfl, hon, hname]
    have hlast : lexRest (name.length + 2 + 1) (.keyword .on) (name ++ ['\n']) =
        some [wordToken name] := lexRest_name h (by decide)
    simp only [hlast, Option.map_some, Line.tokens, isName_ne_nil h, if_false]
    rfl

theorem lexLine_text {l : Line} (h : l.wellFormed) :
    lexLine (l.text ++ ['\n']) = some l.tokens := by
  cases l with
  | blank => decide
  | mainMenu => decide
  | mainEndmenu => decide
  | menu chapter => exact lexLine_menu h
  | endmenu => decide
  | config name => exact lexLine_config h
  | bool name => exact lexLine_bool h
  | dependsOn name => exact lexLine_dependsOn h
  | defaultY => decide

/-! ### Entries of a book -/

theorem sectionEntry_eq_some {dirname : Text} {chapNum : ℕ} {s : Node × ℕ} {e : Entry} :
    sectionEntry dirname chapNum s = some e ↔ s.1.1.attr "id" = some e.filename ∧
      hasUserinput s.1.2 ∧ e = ⟨dirname, chapNum, s.2, e.filename, s.1.2⟩ := by
  unfold sectionEntry
  cases hid : s.1.1.attr "id" with
  | none => simp
  | some filename =>
    by_cases hu : hasUserinput s.1.2
    · simp only [hu, if_true, Option.some.injEq]
      constructor
      · intro he
        subst he
        exact ⟨rfl, trivial, rfl⟩
      · rintro ⟨hf, -, he⟩
        rw [he, ← hf]
    · simp [hu]

theorem mem_entries {book : BlfsBook} {e : Entry} :
    e ∈ entries book ↔ ∃ c ∈ (descendant "chapter" book.doc).zipIdx 1,
      keptId c.1 = some e.dirname ∧ ∃ s ∈ sections c.1, sectionEntry e.dirname c.2 s = some e := by
  simp only [entries, List.mem_flatMap]
  refine exists_congr fun c => and_congr_right fun _ => ?_
  unfold chapterEntries
  cases hk : keptId c.1 with
  | none => simp
  | some dirname =>
    simp only [List.mem_filterMap, Option.some.injEq]
    constructor
    · rintro ⟨s, hs, he⟩
      have hd : dirname = e.dirname := by rw [(sectionEntry_eq_some.mp he).2.2]
      exact ⟨hd, s, hs, hd ▸ he⟩
    · rintro ⟨rfl, s, hs, he⟩
      exact ⟨s, hs, he⟩

theorem keptId_attr {chapter : Node} {i : Text} (h : keptId chapter = some i) :
    chapter.1.attr "id" = some i := by
  unfold keptId at h
  exact (Option.filter_eq_some_iff.mp h).1

theorem isName_id {book : BlfsBook} {n : Node} (hn : n ∈ book.doc.subtrees) {i : Text}
    (hi : n.1.attr "id" = some i) : isName i := by
  have hm : n.1 ∈ book.doc.preorder := by
    rw [← Forest.subtrees_map_fst]
    exact List.mem_map_of_mem hn
  have h := List.all_eq_true.mp book.ids n.1 hm
  rw [hi] at h
  exact h

theorem section_mem {book : BlfsBook} {c s : Node × ℕ}
    (hc : c ∈ (descendant "chapter" book.doc).zipIdx 1) (hs : s ∈ sections c.1) :
    s.1 ∈ book.doc.subtrees := by
  have hcd := subtrees_of_descendant (List.fst_mem_of_mem_zipIdx hc)
  have hsc := subtrees_of_child (List.fst_mem_of_mem_zipIdx hs)
  exact Forest.subtrees_subset hcd hsc

theorem isName_filename {book : BlfsBook} {e : Entry} (he : e ∈ entries book) :
    isName e.filename := by
  obtain ⟨c, hc, -, s, hs, hse⟩ := mem_entries.mp he
  exact isName_id (section_mem hc hs) (sectionEntry_eq_some.mp hse).1

theorem not_mem_script {e : Entry} (he : isName e.filename) {c : Char} (hdigit : c.isDigit = false)
    (hdash : c ≠ '-') (hname : nameChar c = false) : c ∉ e.script.file := by
  rw [script_file]
  simp only [List.mem_append, List.mem_cons, not_or]
  exact ⟨not_mem_decimal hdigit _, hdash, not_mem_decimal hdigit _, hdash, not_mem_name he hname⟩

theorem body_subset {book : BlfsBook} {e : Entry} (he : e ∈ entries book) :
    e.body.subtrees ⊆ book.doc.subtrees := by
  obtain ⟨c, hc, -, s, hs, hse⟩ := mem_entries.mp he
  rw [(sectionEntry_eq_some.mp hse).2.2]
  exact Forest.subtrees_subset (section_mem hc hs)

theorem isName_linkend {book : BlfsBook} {xref : Node} (h : xref ∈ book.doc.subtrees) {l : Text}
    (hl : xref.1.attr "linkend" = some l) : isName l := by
  have hm : xref.1 ∈ book.doc.preorder := by
    rw [← Forest.subtrees_map_fst]
    exact List.mem_map_of_mem h
  have hall := List.all_eq_true.mp book.linkends xref.1 hm
  rw [hl] at hall
  exact hall

theorem requiredLinkends_name {book : BlfsBook} {e : Entry} (he : e ∈ entries book) {l : Text}
    (hl : l ∈ requiredLinkends e.body) : isName l := by
  obtain ⟨p, hp, hl⟩ := List.mem_flatMap.mp hl
  obtain ⟨x, hx, hattr⟩ := List.mem_filterMap.mp hl
  have hpb := subtrees_of_descendant (List.mem_of_mem_filter hp)
  have hxp := subtrees_of_descendant (List.mem_of_mem_filter hx)
  exact isName_linkend (body_subset he (Forest.subtrees_subset hpb hxp)) hattr

theorem dependencies_subset {body : Xml} {l : Text} (hl : l ∈ dependencies body) :
    l = [] ∨ l ∈ requiredLinkends body := by
  obtain ⟨p, hp, hl⟩ := List.mem_flatMap.mp hl
  obtain ⟨x, hx, rfl⟩ := List.mem_map.mp hl
  obtain ⟨hxc, hrole⟩ := List.mem_filter.mp hx
  obtain ⟨hxt, hname⟩ := List.mem_filter.mp hxc
  have hxd : x ∈ (descendant "xref" p.2).filter noRole :=
    List.mem_filter.mpr ⟨List.mem_filter.mpr ⟨Forest.trees_subset _ hxt, hname⟩, hrole⟩
  unfold linkend
  cases hattr : x.1.attr "linkend" with
  | none => exact .inl rfl
  | some l => exact .inr (List.mem_flatMap.mpr ⟨p, hp, List.mem_filterMap.mpr ⟨x, hxd, hattr⟩⟩)

theorem dependencies_name {book : BlfsBook} {e : Entry} (he : e ∈ entries book) {l : Text}
    (hl : l ∈ dependencies e.body) : l = [] ∨ isName l :=
  (dependencies_subset hl).imp_right (requiredLinkends_name he)

/-! ### The whole file -/

theorem cmdLines_wellFormed {book : BlfsBook} : ∀ l ∈ cmdLines book, l.wellFormed := by
  intro l hl
  simp only [cmdLines, List.mem_cons, List.mem_append, List.mem_flatMap, List.not_mem_nil,
    or_false] at hl
  rcases hl with (rfl | ⟨c, hc, hl⟩) | rfl
  · trivial
  · unfold chapterLines at hl
    cases hk : keptId c.1 with
    | none =>
      rw [hk] at hl
      cases hl
    | some dirname =>
      rw [hk] at hl
      simp only [List.mem_append, List.mem_cons, List.mem_flatMap, List.not_mem_nil,
        or_false] at hl
      rcases hl with ((rfl | rfl) | ⟨s, hs, hl⟩) | rfl | rfl | rfl
      · trivial
      · exact isName_id (subtrees_of_descendant (List.fst_mem_of_mem_zipIdx hc)) (keptId_attr hk)
      · rcases List.mem_cons.mp hl with rfl | hl
        · trivial
        · cases he : sectionEntry dirname c.2 s with
          | none =>
            rw [he] at hl
            cases hl
          | some e =>
            rw [he] at hl
            have hd : dirname = e.dirname := by rw [(sectionEntry_eq_some.mp he).2.2]
            have hmem : e ∈ entries book := mem_entries.mpr ⟨c, hc, hd ▸ hk, s, hs, hd ▸ he⟩
            simp only [Option.map_some, Option.getD_some, entryLines, List.mem_append,
              List.mem_cons, List.mem_map, List.not_mem_nil, or_false] at hl
            rcases hl with ((rfl | rfl) | ⟨d, hdep, rfl⟩) | rfl
            · exact isName_filename hmem
            · exact isName_filename hmem
            · exact dependencies_name hmem hdep
            · trivial
      · trivial
      · trivial
      · trivial
  · trivial

theorem not_newline_text {l : Line} (h : l.wellFormed) : '\n' ∉ l.text := by
  have hname : ∀ {name : Text}, isName name → '\n' ∉ name := fun h => not_mem_name h (by decide)
  cases l with
  | menu name =>
    show '\n' ∉ "\tmenu \t\"chapter-".toList ++ name ++ "\"".toList
    simp only [List.mem_append, not_or]
    exact ⟨⟨by decide, hname h⟩, by decide⟩
  | config name =>
    show '\n' ∉ "\tconfig ".toList ++ name
    simp only [List.mem_append, not_or]
    exact ⟨by decide, hname h⟩
  | bool name =>
    show '\n' ∉ "\t\tbool \"".toList ++ name ++ "\"".toList
    simp only [List.mem_append, not_or]
    exact ⟨⟨by decide, hname h⟩, by decide⟩
  | dependsOn name =>
    show '\n' ∉ "\t\tdepends on ".toList ++ name
    simp only [List.mem_append, not_or]
    refine ⟨by decide, ?_⟩
    rcases h with rfl | h
    · decide
    · exact hname h
  | _ => decide

theorem readLines_cmdTxt (book : BlfsBook) :
    readLines (cmdTxt book) = (cmdLines book).map fun l => l.text ++ ['\n'] := by
  have h : ∀ t ∈ (cmdLines book).map Line.text, '\n' ∉ t := by
    intro t ht
    obtain ⟨l, hl, rfl⟩ := List.mem_map.mp ht
    exact not_newline_text (cmdLines_wellFormed l hl)
  have hread := readLines_flatMap h
  rw [List.flatMap_map, List.map_map] at hread
  exact hread

def readTokens (p : Parser) (l : Line) : Option Parser := parseLine p l.tokens

theorem foldlM_readLine {ls : List Line} (h : ∀ l ∈ ls, l.wellFormed) (p : Parser) :
    (ls.map fun l => l.text ++ ['\n']).foldlM readLine p = ls.foldlM readTokens p := by
  induction ls generalizing p with
  | nil => rfl
  | cons l ls ih =>
    rw [List.map_cons, List.foldlM_cons, List.foldlM_cons, readLine,
      lexLine_text (h l List.mem_cons_self)]
    show (parseLine p l.tokens).bind _ = (parseLine p l.tokens).bind _
    congr 1
    funext q
    exact ih (fun m hm => h m (List.mem_cons_of_mem _ hm)) q

/-! ### Entries that are accepted -/

def DepOk (name : Text) : Prop := name ≠ [] ∧ getKeyword name = none

def SymOk (name : Text) : Prop := getKeyword name = none ∧ name ∉ triNames

instance (name : Text) : Decidable (DepOk name) := inferInstanceAs (Decidable (_ ∧ _))
instance (name : Text) : Decidable (SymOk name) := inferInstanceAs (Decidable (_ ∧ _))

def EntryOk (e : Entry) : Prop := SymOk e.filename ∧ ∀ l ∈ dependencies e.body, DepOk l

instance (e : Entry) : Decidable (EntryOk e) := inferInstanceAs (Decidable (_ ∧ _))

/-- What `depends on` means for a reference. -/
def linkExpr (name : Text) : Expr :=
  if name = "m".toList then .and .m (.sym "MODULES".toList)
  else if name ∈ triNames then .const name
  else .sym name

def depExpr (names : List Text) : Expr := names.foldl (fun e l => makeAnd e (linkExpr l)) .y

def entryNode (e : Entry) : MenuNode := ⟨e.filename, depExpr (dependencies e.body)⟩

theorem parseFactor_wordToken (name : Text) :
    parseFactor (wordToken name) =
      if getKeyword name = none then some (linkExpr name) else none := by
  unfold wordToken linkExpr
  cases getKeyword name with
  | some k => rfl
  | none =>
    by_cases hm : name = "m".toList
    · subst hm
      decide
    · by_cases ht : name ∈ triNames
      · simp only [ht, if_true, parseFactor, if_neg hm]
      · simp only [ht, if_false, if_true, parseFactor, if_neg hm]

theorem readTokens_dependsOn {menus : ℕ} {s name : Text} {e : Expr} {ns : List MenuNode} :
    readTokens ⟨menus, true, ⟨s, e⟩ :: ns⟩ (.dependsOn name) =
      if DepOk name then some ⟨menus, true, ⟨s, makeAnd e (linkExpr name)⟩ :: ns⟩ else none := by
  show parseLine _ ([.keyword .depends, .keyword .on] ++ if name = [] then [] else _) = _
  by_cases hname : name = []
  · subst hname
    rfl
  · rw [if_neg hname]
    show parseLine _ [.keyword .depends, .keyword .on, wordToken name] = _
    rw [parseLine_depends, parseFactor_wordToken]
    by_cases hk : getKeyword name = none
    · rw [if_pos hk, if_pos ⟨hname, hk⟩]
      rfl
    · rw [if_neg hk, if_neg fun h => hk h.2]
      rfl

theorem foldlM_dependsOn {names : List Text} {menus : ℕ} {s : Text} {e : Expr}
    {ns : List MenuNode} :
    (names.map Line.dependsOn).foldlM readTokens ⟨menus, true, ⟨s, e⟩ :: ns⟩ =
      if ∀ l ∈ names, DepOk l then
        some ⟨menus, true, ⟨s, names.foldl (fun e l => makeAnd e (linkExpr l)) e⟩ :: ns⟩
      else none := by
  induction names generalizing e with
  | nil => rfl
  | cons l names ih =>
    rw [List.map_cons, List.foldlM_cons, readTokens_dependsOn]
    by_cases hl : DepOk l
    · rw [if_pos hl]
      show (names.map Line.dependsOn).foldlM readTokens _ = _
      rw [ih]
      simp only [List.mem_cons, forall_eq_or_imp, hl, true_and, List.foldl_cons]
    · rw [if_neg hl, if_neg fun h => hl (h l List.mem_cons_self)]
      rfl

theorem foldlM_entryLines (p : Parser) (e : Entry) :
    (entryLines e).foldlM readTokens p =
      if EntryOk e then some ⟨p.menus, true, entryNode e :: p.nodes⟩ else none := by
  have hconfig : readTokens p (.config e.filename) =
      if SymOk e.filename then some ⟨p.menus, true, ⟨e.filename, .y⟩ :: p.nodes⟩ else none := by
    show parseLine p [.keyword .config, wordToken e.filename] = _
    unfold wordToken
    by_cases hs : SymOk e.filename
    · simp only [if_pos hs, hs.1, hs.2, if_false, parseLine]
    · rw [if_neg hs]
      cases hk : getKeyword e.filename with
      | some k => rfl
      | none =>
        have ht : e.filename ∈ triNames := not_not.mp fun ht => hs ⟨hk, ht⟩
        simp only [ht, if_true, parseLine]
  rw [entryLines, List.foldlM_append, List.foldlM_append, List.foldlM_cons, hconfig]
  by_cases hs : SymOk e.filename
  · rw [if_pos hs]
    show ((((dependencies e.body).map Line.dependsOn).foldlM readTokens
      ⟨p.menus, true, ⟨e.filename, .y⟩ :: p.nodes⟩).bind _) = _
    rw [foldlM_dependsOn]
    by_cases hd : ∀ l ∈ dependencies e.body, DepOk l
    · rw [if_pos hd, if_pos ⟨hs, hd⟩]
      rfl
    · rw [if_neg hd, if_neg fun h => hd h.2]
      rfl
  · rw [if_neg hs, if_neg fun h => hs h.1]
    rfl

/-- What a run of lines does to the parser when it stands for the entries `es`. -/
structure Reads (ls : List Line) (es : List Entry) : Prop where
  accepted : (∀ e ∈ es, EntryOk e) → ∀ p, ∃ b, ls.foldlM readTokens p =
    some ⟨p.menus, b, (es.map entryNode).reverse ++ p.nodes⟩
  refused : ¬ (∀ e ∈ es, EntryOk e) → ∀ p, ls.foldlM readTokens p = none

theorem Reads.nil : Reads [] [] :=
  ⟨fun _ p => ⟨p.inConfig, rfl⟩, fun h => absurd (by simp) h⟩

theorem Reads.blank : Reads [.blank] [] :=
  ⟨fun _ p => ⟨p.inConfig, rfl⟩, fun h => absurd (by simp) h⟩

theorem Reads.entry (e : Entry) : Reads (entryLines e) [e] := by
  constructor
  · intro h p
    rw [foldlM_entryLines, if_pos (h e List.mem_cons_self)]
    exact ⟨true, rfl⟩
  · intro h p
    rw [foldlM_entryLines, if_neg (by simpa using h)]

theorem Reads.append {ls ms : List Line} {es fs : List Entry} (h : Reads ls es)
    (h' : Reads ms fs) : Reads (ls ++ ms) (es ++ fs) := by
  constructor
  · intro hok p
    obtain ⟨b, hb⟩ := h.accepted (fun e he => hok e (List.mem_append_left _ he)) p
    obtain ⟨b', hb'⟩ := h'.accepted (fun e he => hok e (List.mem_append_right _ he))
      ⟨p.menus, b, (es.map entryNode).reverse ++ p.nodes⟩
    refine ⟨b', ?_⟩
    rw [List.foldlM_append, hb]
    show ms.foldlM readTokens _ = _
    rw [hb']
    simp
  · intro hbad p
    rw [List.foldlM_append]
    by_cases hes : ∀ e ∈ es, EntryOk e
    · obtain ⟨b, hb⟩ := h.accepted hes p
      rw [hb]
      refine h'.refused (fun hfs => hbad fun e he => ?_) _
      exact (List.mem_append.mp he).elim (hes e) (hfs e)
    · rw [h.refused hes p]
      rfl

theorem Reads.flatMap {α : Type} {f : α → List Line} {g : α → List Entry} {l : List α}
    (h : ∀ x ∈ l, Reads (f x) (g x)) : Reads (l.flatMap f) (l.flatMap g) := by
  induction l with
  | nil => exact .nil
  | cons x l ih =>
    exact (h x List.mem_cons_self).append (ih fun y hy => h y (List.mem_cons_of_mem _ hy))

theorem Reads.menu {ls : List Line} {es : List Entry} (h : Reads ls es) (first last : Line)
    {title : Text} (hfirst : first.tokens = [.keyword .menu, .str title])
    (hlast : last.tokens = [.keyword .endmenu]) : Reads (first :: (ls ++ [last])) es := by
  have hopen : ∀ p, (first :: (ls ++ [last])).foldlM readTokens p =
      (ls.foldlM readTokens ⟨p.menus + 1, false, p.nodes⟩).bind fun q => readTokens q last := by
    intro p
    rw [List.foldlM_cons, readTokens, hfirst]
    show (ls ++ [last]).foldlM readTokens ⟨p.menus + 1, false, p.nodes⟩ = _
    rw [List.foldlM_append]
    simp
  constructor
  · intro hok p
    obtain ⟨b, hb⟩ := h.accepted hok ⟨p.menus + 1, false, p.nodes⟩
    refine ⟨false, ?_⟩
    rw [hopen, hb]
    show parseLine _ last.tokens = _
    rw [hlast]
    rfl
  · intro hbad p
    rw [hopen, h.refused hbad]
    rfl

theorem reads_section (dirname : Text) (chapNum : ℕ) (s : Node × ℕ) :
    Reads (sectionLines dirname chapNum s) (sectionEntry dirname chapNum s).toList := by
  unfold sectionLines
  cases sectionEntry dirname chapNum s with
  | none => exact .blank
  | some e => exact Reads.blank.append (.entry e)

theorem reads_chapter (c : Node × ℕ) : Reads (chapterLines c) (chapterEntries c) := by
  unfold chapterLines chapterEntries
  cases keptId c.1 with
  | none => exact .nil
  | some dirname =>
    have hsections : Reads ((sections c.1).flatMap (sectionLines dirname c.2))
        ((sections c.1).filterMap (sectionEntry dirname c.2)) := by
      rw [List.filterMap_eq_flatMap_toList]
      exact .flatMap fun s _ => reads_section dirname c.2 s
    have hmenu := (hsections.append .blank).menu (.menu dirname) .endmenu rfl rfl
    have h := (Reads.blank.append hmenu).append .blank
    simpa using h

theorem reads_cmdLines (book : BlfsBook) : Reads (cmdLines book) (entries book) :=
  Reads.menu (.flatMap fun c _ => reads_chapter c) .mainMenu .mainEndmenu rfl rfl

/-- kconfiglib parses the file exactly when it accepts every entry, into one node
for each entry. -/
theorem parseText_cmdTxt (book : BlfsBook) :
    parseText (cmdTxt book) =
      if ∀ e ∈ entries book, EntryOk e then some ((entries book).map entryNode) else none := by
  unfold parseText
  rw [readLines_cmdTxt, foldlM_readLine cmdLines_wellFormed]
  by_cases h : ∀ e ∈ entries book, EntryOk e
  · obtain ⟨b, hb⟩ := (reads_cmdLines book).accepted h ⟨0, false, []⟩
    rw [hb, if_pos h]
    simp
  · rw [(reads_cmdLines book).refused h, if_neg h]
    rfl

def bookKconfig (book : BlfsBook) : Kconfig := ⟨(entries book).map entryNode⟩

/-- `b` is a required dependency of an entry with the identifier `a`. -/
def Requires (book : BlfsBook) (a b : Text) : Prop :=
  ∃ e ∈ entries book, e.filename = a ∧ b ∈ exprSyms (depExpr (dependencies e.body))

/-- kconfiglib loads `cmd.txt` when it accepts every entry and no entry depends on
itself. -/
structure Loads (book : BlfsBook) : Prop where
  entryOk : ∀ e ∈ entries book, EntryOk e
  acyclic : ∀ e ∈ entries book, ¬ Relation.TransGen (Requires book) e.filename e.filename

theorem mem_syms {book : BlfsBook} {s : Text} :
    s ∈ (bookKconfig book).uniqueDefinedSyms ↔ ∃ e ∈ entries book, e.filename = s := by
  rw [mem_uniqueDefinedSyms]
  simp [bookKconfig, entryNode]

theorem mem_symNodes {book : BlfsBook} {name : Text} {node : MenuNode} :
    node ∈ (bookKconfig book).symNodes name ↔
      ∃ e ∈ entries book, e.filename = name ∧ entryNode e = node := by
  simp only [Kconfig.symNodes, bookKconfig, List.mem_filter, List.mem_map, decide_eq_true_eq]
  constructor
  · rintro ⟨⟨e, he, rfl⟩, hname⟩
    exact ⟨e, he, hname, rfl⟩
  · rintro ⟨e, he, hname, rfl⟩
    exact ⟨⟨e, he, rfl⟩, hname⟩

theorem mem_dependsOn {book : BlfsBook} {a b : Text} :
    b ∈ (bookKconfig book).dependsOn a ↔ Requires book a b := by
  unfold Kconfig.dependsOn Requires
  rw [List.mem_flatMap]
  constructor
  · rintro ⟨node, hnode, hb⟩
    obtain ⟨e, he, ha, rfl⟩ := mem_symNodes.mp hnode
    exact ⟨e, he, ha, hb⟩
  · rintro ⟨e, he, ha, hb⟩
    exact ⟨entryNode e, mem_symNodes.mpr ⟨e, he, ha, rfl⟩, hb⟩

theorem load_cmdTxt {book : BlfsBook} {k : Kconfig} :
    load (cmdTxt book) = some k ↔ Loads book ∧ k = bookKconfig book := by
  have hloop : Loop.loopFree (bookKconfig book).dependents (bookKconfig book).uniqueDefinedSyms ↔
      ∀ e ∈ entries book, ¬ Relation.TransGen (Requires book) e.filename e.filename := by
    have hrel : (fun a b => b ∈ (bookKconfig book).dependsOn a) = Requires book := by
      funext a b
      exact propext mem_dependsOn
    rw [loopFree_dependents_iff, hrel]
    constructor
    · exact fun h e he => h e.filename (mem_syms.mpr ⟨e, he, rfl⟩)
    · intro h s hs
      obtain ⟨e, he, rfl⟩ := mem_syms.mp hs
      exact h e he
  unfold load
  rw [parseText_cmdTxt]
  by_cases hok : ∀ e ∈ entries book, EntryOk e
  · rw [if_pos hok, Option.bind_some]
    show (if Loop.loopFree (bookKconfig book).dependents (bookKconfig book).uniqueDefinedSyms then
      some (bookKconfig book) else none) = some k ↔ _
    by_cases hl : Loop.loopFree (bookKconfig book).dependents (bookKconfig book).uniqueDefinedSyms
    · rw [if_pos hl, Option.some.injEq]
      exact ⟨fun h => ⟨⟨hok, hloop.mp hl⟩, h.symm⟩, fun h => h.2.symm⟩
    · rw [if_neg hl]
      exact ⟨(nomatch ·), fun h => absurd (hloop.mpr h.1.acyclic) hl⟩
  · rw [if_neg hok]
    exact ⟨(nomatch ·), fun h => absurd h.1.entryOk hok⟩

end HaoosLfs.Blfs
