import HaoosLfs.Book.Userinput
import HaoosLfs.Lib.LineFold

/-!
# Test commands (`lfs.xsl:420-425`, `1079-1148`)

The recursion of `comment-test` is a fold over the lines with the parity of the earlier
lines that have `EOF` in them. What a line is written as decides whether a here-document
is kept and whether a continued line is still continued.
-/

namespace HaoosLfs.Book
open Text

/-! ### The fold over the lines -/

def TestDisabled (p : Params) (anc : List Node) : Prop :=
  p.testsuite = ['0'] ∨ p.testsuite = ['1'] ∧ hasAncestor anc "sect1" criticalSections = false

instance (p : Params) (anc : List Node) : Decidable (TestDisabled p anc) :=
  inferInstanceAs (Decidable (_ ∨ _))

def hasEOF (l : Text) : Bool := contains l "EOF".toList

/-- The words of a line, with `make` made to go on after an error. -/
def testWords (whole l : Text) : Text :=
  if contains whole "make -k".toList then l
  else if contains l "make".toList then
    substringBefore l "make".toList ++ ("make -k".toList ++ substringAfter l "make".toList)
  else l

/-- No redirection is added to these lines, outside a here-document as well. -/
def unlogged (whole l : Text) : Bool :=
  !contains whole "make -k".toList && !contains l "make".toList &&
    (contains l ">>".toList || decide (l.getLast? = some '\\'))

def logSuffix : Text := " >> $TEST_LOG 2>&1 || true".toList

/-- What is written for a line, without the mark of a comment and the newline. -/
def testBody (whole l : Text) (eofSeen : Bool) : Text :=
  testWords whole l ++ if eofSeen || unlogged whole l then [] else logSuffix

theorem testLog_eq (quiet : Bool) : testLog quiet = (if quiet then [] else logSuffix) ++ ['\n'] :=
  rfl

theorem testArms (k m r c eofSeen : Bool) (l x y z : Text) :
    (if k then l ++ testLog eofSeen
      else if m then x ++ (y ++ (z ++ testLog eofSeen))
      else l ++ testLog (r || eofSeen || c)) =
    (if k then l else if m then x ++ (y ++ z) else l) ++
      (if eofSeen || (!k && !m && (r || c)) then [] else logSuffix) ++ ['\n'] := by
  have hquiet : (r || eofSeen || c) = (eofSeen || (r || c)) := by
    rw [Bool.or_comm r eofSeen, Bool.or_assoc]
  rw [hquiet]
  cases k with
  | true => cases eofSeen <;> simp [testLog_eq]
  | false => cases m <;> cases eofSeen <;> simp [testLog_eq]

theorem testLine_eq (p : Params) (anc : List Node) (whole l : Text) (eofSeen : Bool) :
    testLine p anc whole l eofSeen =
      (if TestDisabled p anc then "# ".toList else []) ++ (testBody whole l eofSeen ++ ['\n']) :=
  congrArg₂ (· ++ ·) (if_congr Iff.rfl rfl rfl) (testArms _ _ _ _ _ _ _ _ _)

theorem not_newline_testBody (whole : Text) {l : Text} (h : '\n' ∉ l) (eofSeen : Bool) :
    '\n' ∉ testBody whole l eofSeen := by
  have hwords : '\n' ∉ testWords whole l := by
    unfold testWords
    split_ifs with hk hmake
    · exact h
    · have hs := before_key_after hmake
      rw [hs, List.mem_append, List.mem_append] at h
      rw [List.mem_append, List.mem_append]
      rintro (hb | hk | ha)
      · exact h (.inl hb)
      · exact absurd hk (by decide)
      · exact h (.inr (.inr ha))
    · exact h
  unfold testBody
  rw [List.mem_append]
  rintro (hw | hs)
  · exact hwords hw
  · split_ifs at hs
    · cases hs
    · exact absurd hs (by decide)

theorem commentTestFuel_line (p : Params) (anc : List Node) (whole : Text) {l : Text}
    (h : '\n' ∉ l) (n : ℕ) (eofSeen : Bool) :
    commentTestFuel p anc whole n l eofSeen = testLine p anc whole l eofSeen := by
  cases n with
  | zero => rfl
  | succ n =>
    rw [commentTestFuel, if_neg]
    rwa [contains_singleton]

theorem commentTestFuel_eq (p : Params) (anc : List Node) (whole : Text) {n : ℕ} {s : Text}
    (hn : s.length ≤ n) (eofSeen : Bool) :
    commentTestFuel p anc whole n s eofSeen =
      (lineFold hasEOF (fun b l => testLine p anc whole l b) eofSeen (s.splitOn '\n')).flatten := by
  induction n generalizing s eofSeen with
  | zero =>
    rw [List.length_eq_zero_iff.mp (Nat.le_zero.mp hn)]
    exact (List.append_nil _).symm
  | succ n ih =>
    by_cases hs : '\n' ∈ s
    · obtain ⟨a, b, rfl, ha⟩ := List.eq_append_cons_of_mem hs
      have hlen : b.length ≤ n := by
        rw [List.length_append, List.length_cons] at hn
        omega
      obtain ⟨hbefore, hafter⟩ := substring_singleton ha b
      have hflag : (if contains a "EOF".toList then !eofSeen else eofSeen) =
          (eofSeen ^^ hasEOF a) := by
        unfold hasEOF
        cases contains a "EOF".toList <;> cases eofSeen <;> rfl
      rw [commentTestFuel, if_pos (contains_singleton.mpr hs), hbefore, hafter, hflag, ih hlen,
        commentTestFuel_line p anc whole ha, List.splitOn_append_cons_self_of_not_mem ha, lineFold,
        List.flatten_cons]
    · rw [commentTestFuel_line p anc whole hs, List.splitOn_eq_singleton hs]
      exact (List.append_nil _).symm

/-- The number of earlier lines with `EOF` is odd. -/
abbrev eofSeen (s : Text) (i : ℕ) : Bool := oddBefore hasEOF (s.splitOn '\n') i

def testLines (p : Params) (anc : List Node) (s : Text) : List Text :=
  (s.splitOn '\n').mapIdx fun i l =>
    (if TestDisabled p anc then "# ".toList else []) ++ testBody s l (eofSeen s i)

theorem not_newline_testLines {p : Params} {anc : List Node} {s l : Text}
    (h : l ∈ testLines p anc s) : '\n' ∉ l := by
  obtain ⟨i, hi, rfl⟩ := List.mem_mapIdx.mp h
  rw [List.mem_append]
  rintro (hmark | hbody)
  · split_ifs at hmark
    · exact absurd hmark (by decide)
    · cases hmark
  · exact not_newline_testBody s (not_newline_splitOn (List.getElem_mem hi)) _ hbody

theorem commentTest_eq_testLines (p : Params) (anc : List Node) (s : Text) :
    commentTest p anc s = ((testLines p anc s).map fun l => l ++ ['\n']).flatten := by
  unfold commentTest testLines
  rw [commentTestFuel_eq p anc s (Nat.le_refl _), lineFold_eq_mapIdx, map_mapIdx]
  simp only [Bool.false_xor, testLine_eq, List.append_assoc]

/-- `comment-test` is the fold: one line of output for each line of the text, which is
commented out when the level disables the tests of the section. -/
theorem commentTest_eq_fold (p : Params) (anc : List Node) (s : Text) :
    commentTest p anc s = (readLines (commentTest p anc s)).flatten ∧
      readLines (commentTest p anc s) =
        (s.splitOn '\n').mapIdx fun i l =>
          (if TestDisabled p anc then "# ".toList else []) ++
            (testBody s l (eofSeen s i) ++ ['\n']) := by
  have hread : readLines (commentTest p anc s) = (testLines p anc s).map fun l => l ++ ['\n'] := by
    rw [commentTest_eq_testLines]
    exact readLines_of_lines fun l => not_newline_testLines
  refine ⟨?_, ?_⟩
  · rw [hread]
    exact commentTest_eq_testLines p anc s
  · rw [hread, testLines, map_mapIdx]
    simp only [List.append_assoc]

/-- A command of a section whose tests are enabled. -/
structure IsEnabledTest (p : Params) (anc : List Node) (u : Node) : Prop where
  test : remap u = some "test".toList
  enabled : ¬ TestDisabled p anc

theorem userinput_test {p : Params} {anc : List Node} {u : Node} (h : remap u = some "test".toList)
    (hmr : stringValue u.2 ≠ "make mrproper".toList) (inner literals : Text) :
    render (userinput p anc u inner literals) = commentTest p anc (stringValue u.2) := by
  unfold userinput
  dsimp only
  rw [if_neg hmr, if_pos h]
  exact List.append_nil _

theorem fileLines_enabledTest {p : Params} {anc : List Node} {u : Node}
    (h : IsEnabledTest p anc u) (hmr : stringValue u.2 ≠ "make mrproper".toList)
    (inner literals : Text) :
    fileLines (render (userinput p anc u inner literals)) =
      ((stringValue u.2).splitOn '\n').mapIdx fun i l =>
        testBody (stringValue u.2) l (eofSeen (stringValue u.2) i) := by
  rw [userinput_test h.test hmr, commentTest_eq_testLines,
    fileLines_of_lines fun l => not_newline_testLines]
  simp only [testLines, if_neg h.enabled, List.nil_append]

/-! ### Here-documents -/

/-- A here-document is opened by a line with `EOF` in it and ends with the line `EOF`. -/
def hereStep (inside : Bool) (l : Text) : Bool :=
  if inside then decide (l ≠ "EOF".toList) else hasEOF l

/-- Line `i` is in a here-document, or closes one. -/
def inHere (s : Text) (i : ℕ) : Bool := ((s.splitOn '\n').take i).foldl hereStep false

/-- The lines of the here-documents are written as they are, the others as commands. -/
def HereKept (s out : Text) : Prop :=
  fileLines out =
    (s.splitOn '\n').mapIdx fun i l => if inHere s i then l else testBody s l false

theorem logSuffix_ne_nil : logSuffix ≠ [] := by decide

theorem length_testWords (whole l : Text) :
    (testWords whole l).length =
      l.length + if !contains whole "make -k".toList && contains l "make".toList then 3 else 0 := by
  unfold testWords
  cases contains whole "make -k".toList with
  | true => rfl
  | false =>
    cases hm : contains l "make".toList with
    | false => rfl
    | true =>
      have hlen := congrArg List.length (before_key_after hm)
      have hmake : "make".toList.length = 4 := rfl
      have hkeep : "make -k".toList.length = 7 := rfl
      rw [List.length_append, List.length_append] at hlen
      simp only [Bool.false_eq_true, if_false, if_true, Bool.not_false, Bool.and_self,
        List.length_append]
      omega

theorem testBody_eq_self {whole l : Text} {eofSeen : Bool} :
    testBody whole l eofSeen = l ↔
      (contains whole "make -k".toList ∨ contains l "make".toList = false) ∧
        (eofSeen ∨ unlogged whole l) := by
  have hsuffix : 0 < logSuffix.length := List.length_pos_iff.mpr logSuffix_ne_nil
  have hwords := length_testWords whole l
  constructor
  · intro h
    have hlen := congrArg List.length h
    unfold testBody at hlen
    rw [List.length_append, hwords] at hlen
    constructor
    · by_contra hno
      rw [not_or, Bool.not_eq_true, Bool.not_eq_false] at hno
      rw [hno.1, hno.2] at hlen
      simp only [Bool.not_false, Bool.and_self, if_true] at hlen
      omega
    · by_contra hno
      rw [← Bool.or_eq_true] at hno
      rw [if_neg hno] at hlen
      omega
  · rintro ⟨hmake, hquiet⟩
    rw [← Bool.or_eq_true] at hquiet
    unfold testBody testWords
    rw [if_pos hquiet, List.append_nil]
    rcases hmake with hk | hm
    · rw [if_pos hk]
    · rw [hm, if_neg Bool.false_ne_true, ite_self]

theorem testBody_eq_command {whole l : Text} {eofSeen : Bool} :
    testBody whole l eofSeen = testBody whole l false ↔ eofSeen = false ∨ unlogged whole l := by
  unfold testBody
  cases eofSeen with
  | false => simp
  | true =>
    cases unlogged whole l with
    | true => simp
    | false => simpa using logSuffix_ne_nil.symm

/-- In a test with a here-document these lines are kept: the flag is right, or it makes
no difference, and no word `make` is rewritten. -/
def HereLineKept (s : Text) (i : ℕ) (l : Text) : Prop :=
  (inHere s i → contains s "make -k".toList ∨ contains l "make".toList = false) ∧
    (eofSeen s i = inHere s i ∨ unlogged s l)

instance (s : Text) (i : ℕ) (l : Text) : Decidable (HereLineKept s i l) :=
  inferInstanceAs (Decidable ((_ → _ ∨ _) ∧ (_ ∨ _)))

/-- For every enabled test with a here-document, the here-documents are kept and the
other lines are commands exactly when this holds of each line. -/
theorem here_kept_iff {p : Params} {anc : List Node} {u : Node} (h : IsEnabledTest p anc u)
    (hhere : contains (stringValue u.2) "EOF".toList) (inner literals : Text) :
    HereKept (stringValue u.2) (render (userinput p anc u inner literals)) ↔
      ∀ i l, ((stringValue u.2).splitOn '\n')[i]? = some l →
        HereLineKept (stringValue u.2) i l := by
  have hmr : stringValue u.2 ≠ "make mrproper".toList := by
    intro hs
    rw [hs] at hhere
    exact absurd hhere (by decide +kernel)
  have hline : ∀ i l, (testBody (stringValue u.2) l (eofSeen (stringValue u.2) i) =
      if inHere (stringValue u.2) i then l else testBody (stringValue u.2) l false) ↔
        HereLineKept (stringValue u.2) i l := by
    intro i l
    unfold HereLineKept
    cases inHere (stringValue u.2) i with
    | true => simp [testBody_eq_self]
    | false => simp [testBody_eq_command]
  unfold HereKept
  rw [fileLines_enabledTest h hmr, List.mapIdx_eq_mapIdx_iff]
  constructor
  · intro hkept i l hl
    obtain ⟨hi, rfl⟩ := List.getElem?_eq_some_iff.mp hl
    exact (hline i _).mp (hkept i hi)
  · intro hkept i hi
    exact (hline i _).mpr (hkept i _ (List.getElem?_eq_getElem hi))

/-- Where only the last line of a here-document has `EOF` in it, the flag is right. -/
theorem inHere_eq_eofSeen {s : Text}
    (h : ∀ i l, (s.splitOn '\n')[i]? = some l → inHere s i → hasEOF l → l = "EOF".toList) (i : ℕ) :
    inHere s i = eofSeen s i := by
  induction i with
  | zero => rfl
  | succ i ih =>
    unfold inHere eofSeen oddBefore at ih ⊢
    rw [List.take_add_one, List.foldl_append, List.countP_append, ih]
    cases hl : (s.splitOn '\n')[i]? with
    | none => rfl
    | some l =>
      have hstep : hereStep (eofSeen s i) l = (eofSeen s i ^^ hasEOF l) := by
        unfold hereStep
        cases hseen : eofSeen s i with
        | false => simp
        | true =>
          have hclose := h i l hl (by unfold inHere; rw [ih]; exact hseen)
          have hword : hasEOF "EOF".toList := by decide
          by_cases he : hasEOF l
          · rw [he, hclose he]
            rfl
          · have hne : l ≠ "EOF".toList := by
              rintro rfl
              exact he hword
            rw [Bool.not_eq_true] at he
            rw [he, if_pos rfl, decide_eq_true hne]
            rfl
      unfold eofSeen oddBefore at hstep
      rw [Option.toList_some, List.foldl_cons, List.foldl_nil, hstep, List.countP_singleton]
      cases hasEOF l with
      | false => simp
      | true => simp only [if_true, Nat.odd_add_one, Bool.xor_true, decide_not]

def testUserinput (s : String) : Located :=
  ([(.element "screen" [], .nil), (.element "sect1" [("id", "ch-system-gcc".toList)], .nil)],
    (.element "userinput" [("remap", "test".toList)], .node (.text s.toList) .nil .nil))

theorem isEnabledTest_testUserinput (s : String) :
    IsEnabledTest {} (testUserinput s).1 (testUserinput s).2 :=
  ⟨rfl, of_decide_eq_false rfl⟩

theorem here_kept_input :
    HereKept "cat > in << EOF\nint i;\nEOF\ngcc in".toList
      (applyTo {} (testUserinput "cat > in << EOF\nint i;\nEOF\ngcc in")) := by
  rw [applyTo_userinput _ (by decide)]
  refine (here_kept_iff (isEnabledTest_testUserinput _) (by decide +kernel) _ _).mpr
    fun i l hl => ?_
  obtain ⟨hi, rfl⟩ := List.getElem?_eq_some_iff.mp hl
  clear hl
  revert i
  decide +kernel

/-- A word `make` of a here-document is rewritten. -/
theorem not_here_kept_make :
    IsEnabledTest {} (testUserinput "cat > in << EOF\nmake all\nEOF").1
        (testUserinput "cat > in << EOF\nmake all\nEOF").2 ∧
      ¬ HereKept "cat > in << EOF\nmake all\nEOF".toList
        (applyTo {} (testUserinput "cat > in << EOF\nmake all\nEOF")) := by
  refine ⟨isEnabledTest_testUserinput _, ?_⟩
  unfold HereKept
  decide +kernel

/-! ### Continued lines -/

/-- Line `i` is a line of a command that goes on in the next line. -/
structure IsContinued (s : Text) (i : ℕ) (l : Text) : Prop where
  line : (s.splitOn '\n')[i]? = some l
  outside : inHere s i = false
  backslash : l.getLast? = some '\\'

def ContinuedKept (s out : Text) : Prop :=
  ∀ i l, IsContinued s i l → ∃ o, (fileLines out)[i]? = some o ∧ o.getLast? = some '\\'

theorem getLast?_testWords {whole l : Text} (h : l.getLast? = some '\\') :
    (testWords whole l).getLast? = some '\\' := by
  unfold testWords
  split_ifs with hk hm
  · exact h
  · have hs := before_key_after hm
    cases ha : substringAfter l "make".toList with
    | nil =>
      rw [ha, List.append_nil] at hs
      have hend : "make".toList.getLast? = some 'e' := by decide
      rw [hs, List.getLast?_append, hend] at h
      cases h
    | cons c t =>
      rw [hs, ha, List.getLast?_append, List.getLast?_append, List.getLast?_cons] at h
      rw [List.getLast?_append, List.getLast?_append, List.getLast?_cons]
      exact h
  · exact h

theorem getLast?_testBody {whole l : Text} (h : l.getLast? = some '\\') {eofSeen : Bool} :
    (testBody whole l eofSeen).getLast? = some '\\' ↔
      eofSeen ∨ contains whole "make -k".toList = false ∧ contains l "make".toList = false := by
  have hlogged : (eofSeen || unlogged whole l) = true ↔
      eofSeen ∨ contains whole "make -k".toList = false ∧ contains l "make".toList = false := by
    simp [unlogged, h]
  rw [← hlogged]
  unfold testBody
  constructor
  · intro hlast
    by_contra hno
    have hend : logSuffix.getLast? = some 'e' := by decide
    rw [if_neg hno, List.getLast?_append, hend] at hlast
    cases hlast
  · intro hquiet
    rw [if_pos hquiet, List.append_nil]
    exact getLast?_testWords h

/-- For every enabled test, each continued line is still continued exactly when the flag
is set there, or `make -k` is not in the test and `make` not in the line. -/
theorem continued_kept_iff {p : Params} {anc : List Node} {u : Node} (h : IsEnabledTest p anc u)
    (inner literals : Text) :
    ContinuedKept (stringValue u.2) (render (userinput p anc u inner literals)) ↔
      ∀ i l, IsContinued (stringValue u.2) i l →
        eofSeen (stringValue u.2) i ∨ contains (stringValue u.2) "make -k".toList = false ∧
          contains l "make".toList = false := by
  unfold ContinuedKept
  refine forall_congr' fun i => forall_congr' fun l => imp_congr_right fun hl => ?_
  have hmr : stringValue u.2 ≠ "make mrproper".toList := by
    intro hs
    have hline := hl.line
    have hlast := hl.backslash
    rw [hs] at hline
    cases i with
    | zero =>
      rw [← Option.some.inj hline] at hlast
      exact absurd hlast (by decide)
    | succ i => cases hline
  rw [fileLines_enabledTest h hmr, ← getLast?_testBody hl.backslash, List.getElem?_mapIdx, hl.line]
  simp

theorem continued_kept_input :
    ContinuedKept "cd build\n../configure \\\n --with-gmp".toList
      (applyTo {} (testUserinput "cd build\n../configure \\\n --with-gmp")) := by
  rw [applyTo_userinput _ (by decide)]
  refine (continued_kept_iff (isEnabledTest_testUserinput
    "cd build\n../configure \\\n --with-gmp") _ _).mpr fun i l hl => .inr ?_
  obtain ⟨hi, hline⟩ := List.getElem?_eq_some_iff.mp hl.line
  rw [← hline]
  clear hl hline
  revert i
  decide +kernel

/-- The redirection comes after the backslash of a line with `make`. -/
theorem not_continued_kept_make :
    IsEnabledTest {} (testUserinput "make \\\n check").1 (testUserinput "make \\\n check").2 ∧
      ¬ ContinuedKept "make \\\n check".toList (applyTo {} (testUserinput "make \\\n check")) := by
  refine ⟨isEnabledTest_testUserinput _, fun hkept => ?_⟩
  obtain ⟨o, ho, hlast⟩ := hkept 0 "make \\".toList ⟨by decide +kernel, by decide, by decide⟩
  have hout : (fileLines (applyTo {} (testUserinput "make \\\n check")))[0]? =
      some "make -k \\ >> $TEST_LOG 2>&1 || true".toList := by decide +kernel
  rw [hout] at ho
  rw [← Option.some.inj ho] at hlast
  exact absurd hlast (by decide)

end HaoosLfs.Book
