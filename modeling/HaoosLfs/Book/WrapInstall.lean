import HaoosLfs.Book.Sect2
import HaoosLfs.Lib.ShellWords

/-!
# The argument of `wrapInstall` (`lfs.xsl:213-275`, `463-482`, `1024-1043`)

With package management in the manner of porg, the install commands of a section are
written between single quotes, as the only argument of a shell function.
-/

namespace HaoosLfs.Book
open Text ShellWords

/-! ### The children of a command -/

def literalText (p : Params) (anc : List Node) (t : Node) : Text :=
  literal p (stringValue t.2) (applyTemplates p (fun _ => true) (t :: anc) t.2)

def treeValue (t : Node) : Text := stringValue (.node t.1 t.2 .nil)

/-- The children in document order, the literals as their template writes them. -/
def content (p : Params) (anc : List Node) (f : Xml) : Text :=
  f.trees.flatMap fun t => if t.1.isElement "literal" then literalText p anc t else treeValue t

def literalsText (p : Params) (u : Located) : Text :=
  applyTemplates p (Item.isElement "literal") (u.2 :: u.1) u.2.2

theorem stringValue_eq (f : Xml) : stringValue f = f.trees.flatMap treeValue := by
  induction f with
  | nil => rfl
  | node i cs ss _ ihs =>
    rw [Forest.trees, List.flatMap_cons, ← ihs]
    unfold treeValue stringValue
    simp only [Forest.preorder, List.append_nil, List.flatMap_cons, List.flatMap_append,
      List.append_assoc]

theorem literals_eq (p : Params) (anc : List Node) (f : Xml) :
    applyTemplates p (Item.isElement "literal") anc f =
      f.trees.flatMap fun t => if t.1.isElement "literal" then literalText p anc t else [] := by
  induction f with
  | nil => rfl
  | node i cs ss _ ihs =>
    rw [applyTemplates, Forest.trees, List.flatMap_cons, ihs]
    by_cases hi : i.isElement "literal"
    · rw [if_pos hi, if_pos hi]
      obtain ⟨attrs, rfl⟩ := Item.isElement_iff.mp hi
      rfl
    · rw [if_neg hi, if_neg hi]

theorem content_plain (p : Params) (anc : List Node) {f : Xml} (h : child "literal" f = []) :
    content p anc f = stringValue f := by
  rw [stringValue_eq]
  refine List.flatMap_congr fun t ht => if_neg ?_
  have hno := List.filter_eq_nil_iff.mp h t ht
  simpa using hno

theorem length_texts_le (p : Params) (anc : List Node) (ts : List Node) :
    (ts.filterMap fun t => textItem t.1).flatten.length +
        (ts.flatMap fun t => if t.1.isElement "literal" then literalText p anc t else []).length ≤
      (ts.flatMap fun t =>
        if t.1.isElement "literal" then literalText p anc t else treeValue t).length := by
  induction ts with
  | nil => exact Nat.le_refl _
  | cons t ts ih =>
    simp only [List.filterMap_cons, List.flatMap_cons, List.length_append]
    cases hitem : textItem t.1 with
    | none =>
      dsimp only
      split_ifs
      · omega
      · rw [List.length_nil]
        omega
    | some s =>
      have ht := textItem_eq_some hitem
      have hno : ¬ t.1.isElement "literal" := by simp [ht, Item.isElement]
      have hvalue : treeValue t = s ++ stringValue t.2 := by
        unfold treeValue stringValue
        simp [Forest.preorder, ht]
      simp only [List.flatten_cons, if_neg hno, hvalue, List.length_append, List.length_nil]
      omega

theorem length_two_le (ls : List Text) :
    ((ls[0]?).getD []).length + ((ls[1]?).getD []).length ≤ ls.flatten.length := by
  cases ls with
  | nil => exact Nat.le_refl _
  | cons a ls =>
    cases ls with
    | nil => simp
    | cons b ls =>
      simp only [List.getElem?_cons_zero, List.getElem?_cons_succ, Option.getD_some,
        List.flatten_cons, List.length_append]
      omega

theorem length_content (p : Params) (u : Located) :
    (textChild 1 u.2.2 ++ (literalsText p u ++ textChild 2 u.2.2)).length ≤
      (content p (u.2 :: u.1) u.2.2).length := by
  have htexts := length_texts_le p (u.2 :: u.1) u.2.2.trees
  have htwo : (textChild 1 u.2.2).length + (textChild 2 u.2.2).length ≤ _ :=
    length_two_le (u.2.2.trees.filterMap fun t => textItem t.1)
  have hsum : (textChild 1 u.2.2).length + (textChild 2 u.2.2).length +
      (literalsText p u).length ≤ (content p (u.2 :: u.1) u.2.2).length := by
    unfold literalsText content
    rw [literals_eq]
    exact Nat.le_trans (Nat.add_le_add_right htwo _) htexts
  rw [List.length_append, List.length_append]
  omega

/-! ### One command -/

def commandText (p : Params) (u : Located) : Text :=
  if stringValue u.2.2 = "make mrproper".toList then mrproper u.1
  else if hasStrip (stringValue u.2.2) then commentStrip p (stringValue u.2.2)
  else content p (u.2 :: u.1) u.2.2 ++ ['\n']

def quoted (s : Text) : List (Bool × Char) := s.map (Prod.mk true)
def raw (s : Text) : List (Bool × Char) := s.map (Prod.mk false)

def written (p : Params) (u : Located) : List (Bool × Char) :=
  if stringValue u.2.2 = "make mrproper".toList then raw (mrproper u.1)
  else if hasStrip (stringValue u.2.2) then raw (commentStrip p (stringValue u.2.2))
  else if child "literal" u.2.2 ≠ [] then
    quoted (textChild 1 u.2.2) ++
      (raw (literalsText p u) ++ (quoted (textChild 2 u.2.2) ++ raw ['\n']))
  else quoted (stringValue u.2.2) ++ raw ['\n']

/-- The command is written as it is to be read, and no apostrophe is left as it is. -/
def Quoted (p : Params) (u : Located) : Prop :=
  (hasStrip (stringValue u.2.2) → apos ∉ stringValue u.2.2) ∧
    (hasStrip (stringValue u.2.2) = false → stringValue u.2.2 ≠ "make mrproper".toList →
      child "literal" u.2.2 ≠ [] → apos ∉ literalsText p u ∧
        textChild 1 u.2.2 ++ (literalsText p u ++ textChild 2 u.2.2) =
          content p (u.2 :: u.1) u.2.2)

instance (p : Params) (u : Located) : Decidable (Quoted p u) :=
  inferInstanceAs (Decidable ((_ → _) ∧ (_ → _ → _ → _ ∧ _)))

theorem outputWrap_eq (s : Text) : outputWrap s = quote s :=
  rewrite_char "'\\''".toList s

theorem mem_commentStrip (p : Params) (s : Text) : apos ∈ commentStrip p s ↔ apos ∈ s := by
  refine mem_rewrite_iff ?_ ?_ s
  · intro r hr
    rw [List.mem_singleton.mp hr]
    exact ⟨by decide, by decide⟩
  · intro l
    have hhash : apos ∉ "# ".toList := by decide
    have htrue : apos ∉ " || true\n".toList := by decide
    have hline : apos ∉ ['\n'] := by decide
    unfold stripLine
    split_ifs <;> simp only [List.mem_append, hhash, htrue, hline, List.not_mem_nil, false_or,
      or_false]

theorem mem_raw {s : Text} : (false, apos) ∈ raw s ↔ apos ∈ s := by
  unfold raw
  simp

theorem not_mem_quoted (s : Text) : (false, apos) ∉ quoted s := by
  unfold quoted
  simp

theorem written_spec (p : Params) (u : Located) :
    (written p u).length ≤ (commandText p u).length ∧
      ((false, apos) ∉ written p u ∧ (written p u).map Prod.snd = commandText p u ↔
        Quoted p u) := by
  have hsnd : ∀ s : Text, (quoted s).map Prod.snd = s ∧ (raw s).map Prod.snd = s := fun s =>
    ⟨by simp [quoted], by simp [raw]⟩
  have hlen : ∀ s : Text, (quoted s).length = s.length ∧ (raw s).length = s.length := fun s =>
    ⟨by simp [quoted], by simp [raw]⟩
  have hnl : apos ∉ ['\n'] := by decide
  unfold written commandText Quoted
  by_cases hm : stringValue u.2.2 = "make mrproper".toList
  · have hstrip : hasStrip (stringValue u.2.2) = false := by
      rw [hm]
      decide +kernel
    have hplain : apos ∉ mrproper u.1 := by
      unfold mrproper
      split_ifs <;> decide +kernel
    rw [if_pos hm, if_pos hm, mem_raw]
    refine ⟨(hlen _).2.le, iff_of_true ⟨hplain, (hsnd _).2⟩ ⟨fun h => ?_, fun _ h => absurd hm h⟩⟩
    rw [hstrip] at h
    cases h
  rw [if_neg hm, if_neg hm]
  by_cases hs : hasStrip (stringValue u.2.2)
  · rw [if_pos hs, if_pos hs, mem_raw, mem_commentStrip, and_iff_left (hsnd _).2]
    refine ⟨(hlen _).2.le, fun h => ⟨fun _ => h, fun hno => ?_⟩, fun h => h.1 hs⟩
    rw [hs] at hno
    cases hno
  have hs' : hasStrip (stringValue u.2.2) = false := Bool.eq_false_iff.mpr hs
  rw [if_neg hs, if_neg hs]
  by_cases hl : child "literal" u.2.2 = []
  · have hno : ¬ child "literal" u.2.2 ≠ [] := not_not.mpr hl
    rw [if_neg hno, content_plain p _ hl]
    refine ⟨?_, iff_of_true ⟨?_, ?_⟩ ⟨fun h => absurd h hs, fun _ _ h => absurd hl h⟩⟩
    · rw [List.length_append, List.length_append, (hlen _).1, (hlen _).2]
    · rw [List.mem_append, mem_raw]
      exact not_or.mpr ⟨not_mem_quoted _, hnl⟩
    · rw [List.map_append, (hsnd _).1, (hsnd _).2]
  · have hcontent := length_content p u
    rw [if_pos hl]
    simp only [List.mem_append, mem_raw, not_mem_quoted, hnl, false_or, or_false, List.map_append,
      (hsnd _).1, (hsnd _).2, List.length_append, (hlen _).1, (hlen _).2]
    refine ⟨?_, ?_⟩
    · simp only [List.length_append] at hcontent
      omega
    · rw [← List.append_assoc, ← List.append_assoc, List.append_left_inj, List.append_assoc]
      exact ⟨fun h => ⟨fun hstrip => absurd hstrip hs, fun _ _ _ => h⟩, fun h => h.2 hs' hm hl⟩

/-! ### The commands of a section -/

theorem userinput_of_select {s : Sect2} {q : Option Text → Bool} {c : Command}
    (h : c ∈ select s q) :
    c.1.2.1.isElement "userinput" := by
  have hscreen := (List.mem_filter.mp (List.mem_filter.mp h).1).2
  rw [Bool.and_eq_true] at hscreen
  exact hscreen.1

theorem ancestors_of_select {s : Sect2} {q : Option Text → Bool} {c : Command}
    (h : c ∈ select s q) : s.ancestors <:+ c.1.1 := by
  have hscreen := (List.mem_filter.mp (List.mem_filter.mp h).1).1
  exact (List.suffix_cons _ _).trans (suffix_of_located (List.fst_mem_of_mem_zipIdx hscreen))

theorem applyTo_install {p : Params} {s : Sect2} (hp : p.pkgmngt = yes) (hw : p.wrapInstall = yes)
    (hs : inFinalChapter s.ancestors) {c : Command} (hc : c ∈ installCommands s) :
    applyTo p c.1 = emit (written p c.1) := by
  have hfinal : inFinalChapter c.1.1 := hasAncestor_suffix (ancestors_of_select hc) hs
  have hremap : remap c.1.2 = some "install".toList := by
    have hq := (List.mem_filter.mp hc).2
    rw [Bool.and_eq_true] at hq
    exact of_decide_eq_true hq.2
  have hno : p.pkgmngt ≠ no := by
    rw [hp]
    exact yes_ne_no
  have htext : ∀ t : Text, render [.text t] = t := fun t => List.append_nil t
  rw [applyTo_userinput p (userinput_of_select hc), commandOut, userinput_install hremap hfinal]
  unfold written installCommand literalsText
  rw [if_neg hno, if_pos hw]
  split_ifs
  · rw [htext, raw, emit_raw]
  · rw [htext, raw, emit_raw]
  · simp only [htext, raw, quoted, emit_append, emit_raw, emit_quoted, outputWrap_eq]
  · simp only [htext, raw, quoted, emit_append, emit_raw, emit_quoted, outputWrap_eq]

def quotedPart (p : Params) (s : Sect2) : Text :=
  '\n' :: ((installCommands s).flatMap (fun c => applyTo p c.1) ++ rmLines s "")

def afterWrap (p : Params) (s : Sect2) : Text :=
  textLines packLines ++
    (glibcLocales p s ++ ((lastCommands s).map Part.apply ++ ncursesScreens p s)).flatMap
      (Part.render p)

def installText (p : Params) (s : Sect2) : Text :=
  '\n' :: ((installCommands s).flatMap (fun c => commandText p c.1) ++ rmLines s "")

theorem sect2Text_wrap {p : Params} {s : Sect2} (hp : p.pkgmngt = yes) (hw : p.wrapInstall = yes)
    (hs : managed s) :
    sect2Text p s = (firstCommands s).flatMap (fun c => applyTo p c.1) ++
      ("wrapInstall '".toList ++ (quotedPart p s ++ '\'' :: '\n' :: afterWrap p s)) := by
  have hno : p.pkgmngt ≠ no := by
    rw [hp]
    exact yes_ne_no
  have hopen : openInstall p s = "wrapInstall '".toList ++ ['\n'] := by
    have htest : (managed s && decide (p.pkgmngt = yes)) = true := by simp [hs, hp]
    unfold openInstall
    rw [if_pos htest, if_pos hw]
    exact List.append_nil _
  have hclose : closeInstall p s = rmLines s "" ++ '\'' :: '\n' :: textLines packLines := by
    unfold closeInstall
    rw [if_pos hs, if_neg hno, if_pos hw]
    rfl
  have hcommands : ∀ cs : List Command,
      (cs.map Part.apply).flatMap (Part.render p) = cs.flatMap fun c => applyTo p c.1 := by
    intro cs
    rw [List.flatMap_map]
    rfl
  have htext : ∀ t : Text, Part.render p (.text t) = t := fun t => rfl
  unfold sect2Text sect2 quotedPart afterWrap
  rw [List.flatMap_append, hcommands, List.flatMap_cons, htext, List.flatMap_append, hcommands,
    List.flatMap_cons, htext, hopen, hclose]
  simp only [List.append_assoc, List.cons_append, List.nil_append]

/-- What is written between the quotes, and which characters are quoted. -/
def writtenPart (p : Params) (s : Sect2) : List (Bool × Char) :=
  raw ['\n'] ++ ((installCommands s).flatMap (fun c => written p c.1) ++ raw (rmLines s ""))

theorem quotedPart_eq {p : Params} {s : Sect2} (hp : p.pkgmngt = yes) (hw : p.wrapInstall = yes)
    (hs : managed s) : quotedPart p s = emit (writtenPart p s) := by
  have hfinal : inFinalChapter s.ancestors := by
    unfold managed at hs
    rw [Bool.and_eq_true] at hs
    exact hs.1
  have hcommands : (installCommands s).flatMap (fun c => applyTo p c.1) =
      emit ((installCommands s).flatMap fun c => written p c.1) := by
    unfold emit
    rw [List.flatMap_assoc]
    exact List.flatMap_congr fun c hc => applyTo_install hp hw hfinal hc
  unfold quotedPart writtenPart
  rw [emit_append, emit_append, hcommands, raw, raw, emit_raw, emit_raw]
  rfl

theorem not_mem_rmLines (s : Sect2) : apos ∉ rmLines s "" := by
  unfold rmLines
  split_ifs <;> decide +kernel

/-- The shell reads one word up to the closing quote, with the commands as its value. -/
def OneWord (p : Params) (s : Sect2) : Prop :=
  readWord .quoted (quotedPart p s ++ '\'' :: '\n' :: afterWrap p s) =
    some (installText p s, '\n' :: afterWrap p s)

/-- For every section whose install commands are wrapped, the shell reads one word with
these commands exactly when each of them is written as it is to be read, with all its
apostrophes quoted. -/
theorem one_word_iff {p : Params} {s : Sect2} (hp : p.pkgmngt = yes) (hw : p.wrapInstall = yes)
    (hs : managed s) :
    sect2Text p s = (firstCommands s).flatMap (fun c => applyTo p c.1) ++
        ("wrapInstall '".toList ++ (quotedPart p s ++ '\'' :: '\n' :: afterWrap p s)) ∧
      (OneWord p s ↔ ∀ c ∈ installCommands s, Quoted p c.1) := by
  refine ⟨sect2Text_wrap hp hw hs, ?_⟩
  have hle : ∀ c ∈ installCommands s,
      ((written p c.1).map Prod.snd).length ≤ (commandText p c.1).length := by
    intro c _
    rw [List.length_map]
    exact (written_spec p c.1).1
  have hraw : ∀ t : Text, (raw t).map Prod.snd = t := fun t => by simp [raw]
  have hvalue : (writtenPart p s).map Prod.snd =
      '\n' :: ((installCommands s).flatMap (fun c => (written p c.1).map Prod.snd) ++
        rmLines s "") := by
    unfold writtenPart
    rw [List.map_append, List.map_append, List.map_flatMap, hraw, hraw]
    rfl
  have hlen : (writtenPart p s).length ≤ (installText p s).length := by
    have hsum := length_flatMap_le hle
    rw [← List.length_map Prod.snd, hvalue, installText, List.length_cons, List.length_cons,
      List.length_append, List.length_append]
    omega
  have hnl : apos ∉ ['\n'] := by decide
  unfold OneWord
  rw [quotedPart_eq hp hw hs, readWord_emit_iff hlen, hvalue, installText, List.cons_inj_right,
    List.append_left_inj, flatMap_eq_iff hle]
  have hmem : (false, '\'') ∉ writtenPart p s ↔
      ∀ c ∈ installCommands s, (false, apos) ∉ written p c.1 := by
    show (false, apos) ∉ writtenPart p s ↔ _
    unfold writtenPart
    simp only [List.mem_append, mem_raw, hnl, not_mem_rmLines, false_or, or_false,
      List.mem_flatMap, not_exists, not_and]
  rw [hmem]
  constructor
  · intro ⟨hquoted, hsame⟩ c hc
    exact (written_spec p c.1).2.mp ⟨hquoted c hc, hsame c hc⟩
  · intro h
    exact ⟨fun c hc => ((written_spec p c.1).2.mpr (h c hc)).1,
      fun c hc => ((written_spec p c.1).2.mpr (h c hc)).2⟩

/-! ### Two sections -/

def wrapParams : Params := { pkgmngt := yes, wrapInstall := yes }

def installSect2 (children : Xml) : Sect2 where
  doc := .nil
  ancestors := [(.element "sect1" [("id", "ch-system-bash".toList)], .nil),
    (.element "chapter" [("id", "chapter-building-system".toList)], .nil)]
  node := (.element "sect2" [("role", "installation".toList)],
    .node (.element "screen" [])
      (.node (.element "userinput" [("remap", "install".toList)]) children .nil) .nil)

def textNode (s : String) (rest : Xml) : Xml := .node (.text s.toList) .nil rest

def literalNode (s : String) (rest : Xml) : Xml :=
  .node (.element "literal" []) (textNode s .nil) rest

def sedCommand : Xml :=
  textNode "sed -i 's/" (literalNode "sh/bash" (textNode "/' Makefile && make install" .nil))

theorem one_word_sed : OneWord wrapParams (installSect2 sedCommand) := by
  have hall : (installCommands (installSect2 sedCommand)).all
      (fun c => decide (Quoted wrapParams c.1)) = true := by decide +kernel
  exact (one_word_iff (by decide) (by decide) (by decide +kernel)).2.mpr fun c hc =>
    of_decide_eq_true (List.all_eq_true.mp hall c hc)

/-- The quotes around the name of the program end the word. -/
theorem not_one_word_strip : managed (installSect2 (textNode "strip -v '/usr/bin/['" .nil)) ∧
    ¬ OneWord wrapParams (installSect2 (textNode "strip -v '/usr/bin/['" .nil)) := by
  refine ⟨by decide +kernel, fun h => ?_⟩
  unfold OneWord at h
  revert h
  decide +kernel

/-! ### output-wrap -/

def wrapRules : List RewriteRule := [⟨[apos], always, "'\\''".toList⟩]

/-- `output-wrap` terminates, and what it writes for several texts, between apostrophes, is
one word: the texts one after the other. -/
theorem output_wrap_unquotes (cs : List Text) :
    Terminates (rewriteBody wrapRules id) (rewriteFuel wrapRules id) outputWrap ∧
      readWord .plain (apos :: (cs.flatMap outputWrap ++ [apos])) = some (cs.flatten, []) := by
  refine ⟨terminates_rewrite_char "'\\''".toList id, ?_⟩
  have hquote : cs.flatMap outputWrap = emit (cs.flatten.map (Prod.mk true)) := by
    rw [emit_quoted, List.flatMap_congr fun c _ => outputWrap_eq c, List.flatten_eq_flatMap]
    unfold quote
    rw [List.flatMap_assoc]
    rfl
  have hmarked : (false, '\'') ∉ cs.flatten.map (Prod.mk true) := by simp
  rw [hquote]
  show readWord .quoted (emit (cs.flatten.map (Prod.mk true)) ++ [apos]) = _
  rw [readWord_emit hmarked, List.map_map]
  show some (cs.flatten.map id ++ [], ([] : Text)) = _
  rw [List.map_id, List.append_nil]

end HaoosLfs.Book
