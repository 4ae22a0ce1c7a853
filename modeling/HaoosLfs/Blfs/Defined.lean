import HaoosLfs.Blfs.CmdTxt

/-!
# Symbols that nothing defines

`blfs.xsl` writes a dependency for every reference in a required paragraph, but
an entry only for some sections. A symbol without an entry has the value `n`, and
so has every package that depends on it.
-/

namespace HaoosLfs.Blfs
open Book Text Kconfiglib

/-- The symbol of a `config` line, and of a `depends on` line. -/
def configSym : List Token → Option Text
  | [.keyword .config, .sym s] => some s
  | _ => none

def dependsSym : List Token → Option Text
  | [.keyword .depends, .keyword .on, .sym s] => some s
  | _ => none

def symsOf (f : List Token → Option Text) (text : Text) : List Text :=
  (readLines text).filterMap fun line => (lexLine line).bind f

/-- The book has a section `name`, with commands, in a chapter that is not
excluded. -/
def HasEntry (book : BlfsBook) (name : Text) : Prop :=
  ∃ chapter ∈ descendant "chapter" book.doc, (keptId chapter).isSome ∧
    ∃ s ∈ child "sect1" chapter.2, s.1.attr "id" = some name ∧ hasUserinput s.2

theorem exists_zipIdx {α : Type} {l : List α} {x : α} (h : x ∈ l) (n : ℕ) :
    ∃ i, (x, i) ∈ l.zipIdx n := by
  rw [← List.zipIdx_map_fst n l] at h
  obtain ⟨⟨y, i⟩, hm, rfl⟩ := List.mem_map.mp h
  exact ⟨i, hm⟩

theorem hasEntry_iff {book : BlfsBook} {name : Text} :
    HasEntry book name ↔ ∃ e ∈ entries book, e.filename = name := by
  constructor
  · rintro ⟨chapter, hc, hk, s, hs, hid, hu⟩
    obtain ⟨dirname, hd⟩ := Option.isSome_iff_exists.mp hk
    obtain ⟨i, hi⟩ := exists_zipIdx hc 1
    obtain ⟨j, hj⟩ := exists_zipIdx hs 1
    refine ⟨⟨dirname, i, j, name, s.2⟩, mem_entries.mpr ⟨(chapter, i), hi, hd, (s, j), hj, ?_⟩, rfl⟩
    exact sectionEntry_eq_some.mpr ⟨hid, hu, rfl⟩
  · rintro ⟨e, he, rfl⟩
    obtain ⟨c, hc, hk, s, hs, hse⟩ := mem_entries.mp he
    obtain ⟨hid, hu, -⟩ := sectionEntry_eq_some.mp hse
    exact ⟨c.1, List.fst_mem_of_mem_zipIdx hc, by rw [hk]; rfl, s.1,
      List.fst_mem_of_mem_zipIdx hs, hid, hu⟩

/-! ### The lines of entries -/

theorem mem_sectionLines {dirname : Text} {chapNum : ℕ} {s : Node × ℕ} {l : Line}
    (hl : l ≠ .blank) : l ∈ sectionLines dirname chapNum s ↔
      ∃ e, sectionEntry dirname chapNum s = some e ∧ l ∈ entryLines e := by
  unfold sectionLines
  cases sectionEntry dirname chapNum s with
  | none => simp [hl]
  | some e => simp [hl]

theorem mem_cmdLines {book : BlfsBook} {l : Line}
    (hl : l ∉ [Line.blank, .mainMenu, .mainEndmenu, .endmenu]) (hmenu : ∀ t, l ≠ .menu t) :
    l ∈ cmdLines book ↔ ∃ e ∈ entries book, l ∈ entryLines e := by
  simp only [List.mem_cons, List.not_mem_nil, or_false, not_or] at hl
  simp only [cmdLines, List.mem_cons, List.mem_append, List.mem_flatMap, List.not_mem_nil,
    or_false, hl.2.1, hl.2.2.1, false_or, entries]
  constructor
  · rintro ⟨c, hc, hlc⟩
    unfold chapterLines at hlc
    cases hk : keptId c.1 with
    | none =>
      rw [hk] at hlc
      cases hlc
    | some dirname =>
      rw [hk] at hlc
      simp only [List.mem_append, List.mem_cons, List.mem_flatMap, List.not_mem_nil, or_false,
        hl.1, hl.2.2.2, hmenu dirname, false_or] at hlc
      obtain ⟨s, hs, hls⟩ := hlc
      obtain ⟨e, he, hle⟩ := (mem_sectionLines hl.1).mp hls
      refine ⟨e, ⟨c, hc, ?_⟩, hle⟩
      unfold chapterEntries
      rw [hk]
      exact List.mem_filterMap.mpr ⟨s, hs, he⟩
  · rintro ⟨e, ⟨c, hc, he⟩, hle⟩
    refine ⟨c, hc, ?_⟩
    unfold chapterEntries at he
    unfold chapterLines
    cases hk : keptId c.1 with
    | none =>
      rw [hk] at he
      cases he
    | some dirname =>
      rw [hk] at he
      obtain ⟨s, hs, hse⟩ := List.mem_filterMap.mp he
      simp only [List.mem_append, List.mem_flatMap]
      exact .inl (.inr ⟨s, hs, (mem_sectionLines hl.1).mpr ⟨e, hse, hle⟩⟩)

theorem wordToken_eq_sym {name s : Text} : wordToken name = .sym s ↔ SymOk name ∧ name = s := by
  unfold wordToken
  by_cases h : SymOk name
  · simp [h.1, h.2, h]
  · cases hk : getKeyword name with
    | some k => simp [SymOk, hk]
    | none =>
      have ht : name ∈ triNames := not_not.mp fun ht => h ⟨hk, ht⟩
      simp [ht, h]

theorem mem_symsOf {book : BlfsBook} {f : List Token → Option Text} {s : Text} :
    s ∈ symsOf f (cmdTxt book) ↔ ∃ l ∈ cmdLines book, f l.tokens = some s := by
  unfold symsOf
  rw [readLines_cmdTxt, List.filterMap_map, List.mem_filterMap]
  refine exists_congr fun l => and_congr_right fun hl => ?_
  rw [Function.comp_apply, lexLine_text (cmdLines_wellFormed l hl), Option.bind_some]

theorem configSym_tokens {l : Line} {s : Text} :
    configSym l.tokens = some s ↔ ∃ name, l = .config name ∧ wordToken name = .sym s := by
  cases l with
  | config name =>
    show configSym [.keyword .config, wordToken name] = some s ↔ _
    cases h : wordToken name <;> simp [configSym, h]
  | dependsOn name =>
    show configSym ([.keyword .depends, .keyword .on] ++ _) = some s ↔ _
    simp [configSym]
  | _ => simp [configSym, Line.tokens]

theorem dependsSym_tokens {l : Line} {s : Text} :
    dependsSym l.tokens = some s ↔
      ∃ name, l = .dependsOn name ∧ name ≠ [] ∧ wordToken name = .sym s := by
  cases l with
  | dependsOn name =>
    show dependsSym ([.keyword .depends, .keyword .on] ++ _) = some s ↔ _
    by_cases hn : name = []
    · simp [hn, dependsSym]
    · cases h : wordToken name <;> simp [dependsSym, h, hn]
  | config name =>
    show dependsSym [.keyword .config, wordToken name] = some s ↔ _
    simp [dependsSym]
  | _ => simp [dependsSym, Line.tokens]

theorem mem_configSyms {book : BlfsBook} {s : Text} :
    s ∈ symsOf configSym (cmdTxt book) ↔ SymOk s ∧ HasEntry book s := by
  rw [mem_symsOf, hasEntry_iff]
  constructor
  · rintro ⟨l, hl, hs⟩
    obtain ⟨name, rfl, hw⟩ := configSym_tokens.mp hs
    obtain ⟨hok, rfl⟩ := wordToken_eq_sym.mp hw
    obtain ⟨e, he, hle⟩ := (mem_cmdLines (by simp) (by simp)).mp hl
    refine ⟨hok, e, he, ?_⟩
    simpa [entryLines, eq_comm] using hle
  · rintro ⟨hok, e, he, rfl⟩
    refine ⟨.config e.filename, (mem_cmdLines (by simp) (by simp)).mpr ⟨e, he, ?_⟩,
      configSym_tokens.mpr ⟨_, rfl, wordToken_eq_sym.mpr ⟨hok, rfl⟩⟩⟩
    simp [entryLines]

theorem mem_dependsSyms {book : BlfsBook} {s : Text} :
    s ∈ symsOf dependsSym (cmdTxt book) ↔
      s ≠ [] ∧ SymOk s ∧ ∃ e ∈ entries book, s ∈ dependencies e.body := by
  rw [mem_symsOf]
  constructor
  · rintro ⟨l, hl, hs⟩
    obtain ⟨name, rfl, hne, hw⟩ := dependsSym_tokens.mp hs
    obtain ⟨hok, rfl⟩ := wordToken_eq_sym.mp hw
    obtain ⟨e, he, hle⟩ := (mem_cmdLines (by simp) (by simp)).mp hl
    exact ⟨hne, hok, e, he, by simpa [entryLines] using hle⟩
  · rintro ⟨hne, hok, e, he, hs⟩
    refine ⟨.dependsOn s, (mem_cmdLines (by simp) (by simp)).mpr ⟨e, he, ?_⟩,
      dependsSym_tokens.mpr ⟨_, rfl, hne, wordToken_eq_sym.mpr ⟨hok, rfl⟩⟩⟩
    simpa [entryLines] using hs

/-- Every symbol of a `depends on` line has an entry exactly when every reference
that is written as a symbol leads to a section which gets one. -/
theorem dependsSyms_defined_iff (book : BlfsBook) :
    (∀ s ∈ symsOf dependsSym (cmdTxt book), s ∈ symsOf configSym (cmdTxt book)) ↔
      ∀ e ∈ entries book, ∀ l ∈ dependencies e.body, l ≠ [] → SymOk l → HasEntry book l := by
  constructor
  · intro h e he l hl hne hok
    exact (mem_configSyms.mp (h l (mem_dependsSyms.mpr ⟨hne, hok, e, he, hl⟩))).2
  · intro h s hs
    obtain ⟨hne, hok, e, he, hl⟩ := mem_dependsSyms.mp hs
    exact mem_configSyms.mpr ⟨hok, h e he s hl hne hok⟩

theorem depExpr_value_zero {value : Text → ℕ} (hv : ∀ s, value s ≤ 2) {names : List Text} {l : Text}
    (hl : l ∈ names) (hz : exprValue value (linkExpr l) = 0) :
    exprValue value (depExpr names) = 0 := by
  have hfold : ∀ (names : List Text) (e : Expr),
      (exprValue value e = 0 ∨ l ∈ names) →
        exprValue value (names.foldl (fun e l => makeAnd e (linkExpr l)) e) = 0 := by
    intro names
    induction names with
    | nil =>
      intro e h
      simpa using h
    | cons l' names ih =>
      intro e h
      apply ih _
      rw [exprValue_makeAnd hv]
      rcases h with h | h
      · exact .inl (by omega)
      · rcases List.mem_cons.mp h with rfl | h
        · exact .inl (by omega)
        · exact .inr h
  exact hfold names .y (.inr hl)

/-- A package that requires a symbol without an entry is `n` in every
configuration. -/
theorem undefined_unselectable {book : BlfsBook} {e : Entry} {l : Text}
    (hl : l ∈ dependencies e.body) (hok : SymOk l) (hno : ¬ HasEntry book l) {value : Text → ℕ}
    (hv : ∀ s, value s ≤ 2) (hundef : ∀ s, ¬ HasEntry book s → value s = 0) :
    exprValue value (entryNode e).dep = 0 := by
  apply depExpr_value_zero hv hl
  have hm : l ≠ "m".toList := fun h => hok.2 (h ▸ by decide)
  rw [linkExpr, if_neg hm, if_neg hok.2]
  exact hundef l hno

def pageBook : BlfsBook where
  doc := .node (.element "chapter" [("id", "general".toList)])
    (.node (.element "sect1" [("id", "notes".toList)]) .nil
      (.node (.element "sect1" [("id", "which".toList)])
        (requiredPara ["notes"] (commandsOf .nil)) .nil)) .nil
  ids := by decide
  linkends := by decide

theorem not_dependsSyms_defined_pageBook :
    ¬ ∀ s ∈ symsOf dependsSym (cmdTxt pageBook), s ∈ symsOf configSym (cmdTxt pageBook) := by
  decide

end HaoosLfs.Blfs
