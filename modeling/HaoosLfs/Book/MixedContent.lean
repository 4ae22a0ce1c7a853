import HaoosLfs.Book.CommentStrip
import HaoosLfs.Book.Insertions
import HaoosLfs.Book.WrapInstall

/-!
# Commands with literals (`lfs.xsl:463-503`, `626-663`)

With package management, the text of an install command is transformed before it is
written. A command with literals has its first text, its literals and its second text
written, in this order, whatever its children are. In the sections without `DESTDIR` the
rewritten `make` line is all that is written from the first `make` on.
-/

namespace HaoosLfs.Book
open Text ShellWords

/-! ### What the transformations keep -/

theorem sublist_render (ps : List Out) : List.Sublist (erase ps) (render ps) := by
  refine List.Sublist.flatMap_right ps fun o _ => ?_
  cases o with
  | text t => exact List.Sublist.refl t
  | inserted t => exact List.nil_sublist t

theorem count_render {c : Char} {ps : List Out} (h : ∀ t, Out.inserted t ∈ ps → c ∉ t) :
    (render ps).count c = (erase ps).count c := by
  unfold render erase
  rw [List.count_flatMap, List.count_flatMap]
  congr 1
  refine List.map_congr_left fun o ho => ?_
  cases o with
  | text t => rfl
  | inserted t => exact List.count_eq_zero.mpr (h t ho)

theorem inserted_outputpkgdest {anc : List Node} {whole : Text} {n : ℕ} {s t : Text}
    (h : Out.inserted t ∈ outputpkgdestFuel anc whole n s) :
    t = ' ' :: destdir ∨ t = destdir ++ [' '] ∨ t = pkgDest := by
  induction n generalizing s with
  | zero => simp [outputpkgdestFuel] at h
  | succ n ih =>
    rw [outputpkgdestFuel] at h
    split_ifs at h with hmake hninja
    · unfold pkgdestMake at h
      split_ifs at h
      · exact (List.mem_append.mp h).elim ih ih
      · split at h
        · simp at h
        · rcases List.mem_append.mp h with h | h
          · simp only [List.mem_cons, reduceCtorEq, Out.inserted.injEq, List.not_mem_nil,
              or_false, false_or] at h
            exact .inl h
          · exact ih h
    · unfold pkgdestNinja at h
      split_ifs at h
      · exact (List.mem_append.mp h).elim ih ih
      · rcases List.mem_append.mp h with h | h
        · simp only [List.mem_cons, reduceCtorEq, Out.inserted.injEq, List.not_mem_nil,
            or_false] at h
          exact .inr (.inl h)
        · exact ih h
    · unfold pkgdestPath at h
      split_ifs at h
      · rcases List.mem_append.mp h with h | h
        · simp only [List.mem_cons, reduceCtorEq, Out.inserted.injEq, List.not_mem_nil,
            or_false, false_or] at h
          exact .inr (.inr h)
        · exact ih h
      · rcases List.mem_append.mp h with h | h
        · simp only [List.mem_cons, reduceCtorEq, Out.inserted.injEq, List.not_mem_nil,
            or_false, false_or] at h
          exact .inr (.inr h)
        · exact ih h
      · simp at h

def fromMake (s : Text) : Text := "make".toList ++ substringAfter s "make".toList

theorem before_fromMake {s : Text} (h : contains s "make ".toList) :
    s = substringBefore s "make".toList ++ fromMake s :=
  before_key_after (contains_make_of_space h)

theorem fromMake_start (t : Text) : fromMake ("make".toList ++ t) = "make".toList ++ t := by
  rw [fromMake, substringAfter_self_append]

theorem contains_fromMake {s : Text} (h : contains s "make ".toList) :
    contains (fromMake s) "make ".toList := by
  obtain ⟨b, a, hfirst⟩ := exists_first_make h
  have hafter : substringAfter s "make".toList = a := (substring_of_splitFirst hfirst).2
  rw [fromMake, hafter]
  rcases first_make h hfirst with ⟨y, rfl⟩ | ha
  · exact contains_make_space.mpr ⟨[], y, rfl⟩
  · have hc := contains_append ha "make".toList []
    rwa [List.append_nil] at hc

theorem not_contains_beforeMake {s : Text} (h : contains s "make ".toList) :
    contains (substringBefore s "make".toList) "make ".toList = false := by
  obtain ⟨b, a, hfirst⟩ := exists_first_make h
  rw [(substring_of_splitFirst hfirst).1]
  exact not_contains_before hfirst

section
variable {anc : List Node} {whole s : Text}

theorem outputpkgdest_later (hmake : contains s "make ".toList)
    (hstart : "make".toList.isPrefixOf s = false) :
    outputpkgdest anc whole s =
      outputpkgdest anc whole (substringBefore s "make".toList) ++
        outputpkgdest anc whole (fromMake s) := by
  rw [outputpkgdest_eq_body, pkgdestBody, if_pos hmake, pkgdestMake, hstart, Bool.not_false,
    if_pos rfl, substringAfter_before (contains_make_of_space hmake), fromMake]

theorem outputpkgdest_start {t : Text} (hmake : contains ("make".toList ++ t) "make ".toList)
    (hnone : specialMake anc whole ("make".toList ++ t) = none) :
    outputpkgdest anc whole ("make".toList ++ t) =
      [.text "make -j1".toList, .inserted (' ' :: destdir)] ++ outputpkgdest anc whole t := by
  have hstart : "make".toList.isPrefixOf ("make".toList ++ t) :=
    List.isPrefixOf_iff_prefix.mpr (List.prefix_append _ _)
  rw [outputpkgdest_eq_body, pkgdestBody, if_pos hmake, pkgdestMake, hstart, Bool.not_true,
    if_neg Bool.false_ne_true, hnone, substringAfter_self_append]

theorem outputpkgdest_special {t line : Text}
    (hmake : contains ("make".toList ++ t) "make ".toList)
    (hline : specialMake anc whole ("make".toList ++ t) = some line) :
    outputpkgdest anc whole ("make".toList ++ t) = [.text line] := by
  have hstart : "make".toList.isPrefixOf ("make".toList ++ t) :=
    List.isPrefixOf_iff_prefix.mpr (List.prefix_append _ _)
  rw [outputpkgdest_eq_body, pkgdestBody, if_pos hmake, pkgdestMake, hstart, Bool.not_true,
    if_neg Bool.false_ne_true, hline]

theorem erase_beforeMake (hmake : contains s "make ".toList = false) :
    erase (outputpkgdest anc whole s) = s := erase_no_make hmake (Nat.le_refl _)

theorem not_contains_substrings {m : Text} (h : contains s m = false) (k : Text) :
    contains (substringBefore s k) m = false ∧ contains (substringAfter s k) m = false := by
  have hempty : ∀ {x : Text}, contains x m → x = [] → contains s m := by
    rintro x hx rfl
    have hs := contains_append hx [] s
    rwa [List.nil_append, List.nil_append] at hs
  rw [Bool.eq_false_iff] at h
  by_cases hk : contains s k
  · have hs := before_key_after hk
    refine ⟨Bool.eq_false_iff.mpr fun hb => h ?_, Bool.eq_false_iff.mpr fun ha => h ?_⟩
    · have hc := contains_append hb [] (k ++ substringAfter s k)
      rwa [List.nil_append, ← hs] at hc
    · have hc := contains_append ha (substringBefore s k ++ k) []
      rwa [List.append_nil, List.append_assoc, ← hs] at hc
  · have hnone : splitFirst k s = none := Option.not_isSome_iff_eq_none.mp hk
    refine ⟨Bool.eq_false_iff.mpr fun hb => h (hempty hb ?_),
      Bool.eq_false_iff.mpr fun ha => h (hempty ha ?_)⟩
    · rw [substringBefore, hnone]
      rfl
    · rw [substringAfter, hnone]
      rfl

theorem specialMake_none {t : Text} (h : specialMake anc whole s = none)
    (hsub : contains t "DOCDIR".toList → contains s "DOCDIR".toList) :
    specialMake anc whole t = none := by
  unfold specialMake at h ⊢
  dsimp only at h ⊢
  split_ifs at h ⊢ <;> simp_all

/-- Where the first `make` is not one of a special section, no later one is. -/
theorem make_induction {P : Text → Prop}
    (hfree : ∀ t, contains t "make ".toList = false → P t)
    (hstart : ∀ t, contains ("make".toList ++ t) "make ".toList →
      specialMake anc whole ("make".toList ++ t) = none → P t → P ("make".toList ++ t))
    (hlater : ∀ t, contains t "make ".toList → "make".toList.isPrefixOf t = false →
      P (substringBefore t "make".toList) → P (fromMake t) → P t)
    (h : contains s "make ".toList → specialMake anc whole (fromMake s) = none) : P s := by
  induction hn : s.length using Nat.strong_induction_on generalizing s with
  | _ n ih =>
    by_cases hmake : contains s "make ".toList
    · have hafter : P (substringAfter s "make".toList) := by
        have hlen := length_substringAfter (by decide) (contains_make_of_space hmake)
        refine ih _ (by omega) (fun hagain => specialMake_none (h hmake) fun hdoc => ?_) rfl
        have hrest := contains_append hdoc (substringBefore (substringAfter s "make".toList)
          "make".toList) []
        rw [List.append_nil, ← before_fromMake hagain] at hrest
        have hfrom := contains_append hrest "make".toList []
        rwa [List.append_nil] at hfrom
      have hfrom : P (fromMake s) := hstart _ (contains_fromMake hmake) (h hmake) hafter
      by_cases hprefix : "make".toList.isPrefixOf s
      · obtain ⟨t, rfl⟩ := List.isPrefixOf_iff_prefix.mp hprefix
        rwa [fromMake_start] at hfrom
      · exact hlater s hmake (Bool.eq_false_iff.mpr hprefix)
          (hfree _ (not_contains_beforeMake hmake)) hfrom
    · exact hfree s (Bool.eq_false_iff.mpr hmake)

theorem sublist_outputpkgdest
    (h : contains s "make ".toList → specialMake anc whole (fromMake s) = none) :
    List.Sublist s (render (outputpkgdest anc whole s)) := by
  refine make_induction (P := fun s => List.Sublist s (render (outputpkgdest anc whole s)))
    (fun t ht => ?_) (fun t hmake hnone ht => ?_) (fun t hmake hprefix hbefore hfrom => ?_) h
  · have hkept := sublist_render (outputpkgdest anc whole t)
    rwa [erase_beforeMake ht] at hkept
  · have hword : List.Sublist "make".toList
        (render [.text "make -j1".toList, .inserted (' ' :: destdir)]) := by decide
    rw [outputpkgdest_start hmake hnone]
    unfold render
    rw [List.flatMap_append]
    exact hword.append ht
  · have happend := hbefore.append hfrom
    rw [← before_fromMake hmake] at happend
    rw [outputpkgdest_later hmake hprefix]
    unfold render at happend ⊢
    rwa [List.flatMap_append]

theorem outputpkgdestFuel_whole (whole' : Text) {n : ℕ}
    (hmake : contains s "make ".toList = false) :
    outputpkgdestFuel anc whole n s = outputpkgdestFuel anc whole' n s := by
  induction n generalizing s with
  | zero => rfl
  | succ n ih =>
    have hcall : ∀ k, outputpkgdestFuel anc whole n (substringBefore s k) =
          outputpkgdestFuel anc whole' n (substringBefore s k) ∧
        outputpkgdestFuel anc whole n (substringAfter s k) =
          outputpkgdestFuel anc whole' n (substringAfter s k) := fun k =>
      ⟨ih (not_contains_substrings hmake k).1, ih (not_contains_substrings hmake k).2⟩
    rw [outputpkgdestFuel, outputpkgdestFuel, hmake, if_neg Bool.false_ne_true,
      if_neg Bool.false_ne_true]
    unfold pkgdestNinja pkgdestPath
    simp only [hcall]

theorem specialMake_whole (whole' : Text) (h : specialMake anc whole s = none) :
    specialMake anc whole' s = none := by
  unfold specialMake at h ⊢
  dsimp only at h ⊢
  split_ifs at h ⊢
  rfl

theorem outputpkgdest_whole (whole' : Text)
    (h : contains s "make ".toList → specialMake anc whole (fromMake s) = none) :
    outputpkgdest anc whole s = outputpkgdest anc whole' s := by
  refine make_induction (P := fun s => outputpkgdest anc whole s = outputpkgdest anc whole' s)
    (fun t ht => outputpkgdestFuel_whole whole' ht) (fun t hmake hnone ht => ?_)
    (fun t hmake hprefix hbefore hfrom => ?_) h
  · rw [outputpkgdest_start hmake hnone, outputpkgdest_start hmake (specialMake_whole _ hnone), ht]
  · rw [outputpkgdest_later hmake hprefix, outputpkgdest_later hmake hprefix, hbefore, hfrom]

/-- In a special section, one line is written for the text from the first `make` on. -/
theorem render_special {line : Text} (hmake : contains s "make ".toList)
    (hline : specialMake anc whole (fromMake s) = some line) :
    render (outputpkgdest anc whole s) =
      render (outputpkgdest anc whole (substringBefore s "make".toList)) ++ line := by
  have hfrom : outputpkgdest anc whole (fromMake s) = [.text line] :=
    outputpkgdest_special (contains_fromMake hmake) hline
  by_cases hstart : "make".toList.isPrefixOf s
  · obtain ⟨t, rfl⟩ := List.isPrefixOf_iff_prefix.mp hstart
    have hempty : substringBefore ("make".toList ++ t) "make".toList = [] :=
      (substring_of_splitFirst (splitFirst_self_append _ t)).1
    rw [fromMake_start] at hfrom
    rw [hempty, hfrom]
    exact List.append_nil line
  · rw [outputpkgdest_later hmake (Bool.eq_false_iff.mpr hstart), hfrom]
    unfold render
    rw [List.flatMap_append]
    exact congrArg _ (List.append_nil line)

theorem count_beforeMake (hmake : contains s "make ".toList = false) :
    (render (outputpkgdest anc whole s)).count 'm' = s.count 'm' := by
  rw [count_render, erase_beforeMake hmake]
  intro t ht
  rcases inserted_outputpkgdest ht with rfl | rfl | rfl <;> decide

/-- The text before the first `make` has all its `m` to itself, so that what is kept of the rest
is in the line. -/
theorem sublist_special_iff {line : Text} (hmake : contains s "make ".toList)
    (hline : specialMake anc whole (fromMake s) = some line) :
    List.Sublist s (render (outputpkgdest anc whole s)) ↔ List.Sublist (fromMake s) line := by
  have hno := not_contains_beforeMake hmake
  have hbefore := sublist_render (outputpkgdest anc whole (substringBefore s "make".toList))
  rw [erase_beforeMake hno] at hbefore
  rw [render_special hmake hline]
  constructor
  · intro h
    have hsplit : List.Sublist (substringBefore s "make".toList ++ fromMake s)
        (render (outputpkgdest anc whole (substringBefore s "make".toList)) ++ line) := by
      rwa [← before_fromMake hmake]
    obtain ⟨x, y, hxy, hx, hy⟩ := List.sublist_append_iff.mp hsplit
    rcases List.append_eq_append_iff.mp hxy with ⟨z, rfl, hz⟩ | ⟨z, -, rfl⟩
    · cases z with
      | nil =>
        rw [hz]
        exact hy
      | cons c z =>
        have hfirst : (fromMake s).head? = some 'm' := rfl
        rw [hz, List.cons_append, List.head?_cons, Option.some.injEq] at hfirst
        have hcount := hx.count_le 'm'
        rw [count_beforeMake hno, List.count_append, hfirst, List.count_cons_self] at hcount
        omega
    · exact (List.sublist_append_right _ _).trans hy
  · intro h
    have happend := hbefore.append h
    rwa [← before_fromMake hmake] at happend

end

/-- In a section without `DESTDIR`, the line for a `make` has all of the text from the `make`
on, and its arguments are those of the text. -/
def MakeKept (p : Params) (anc : List Node) (whole s : Text) : Prop :=
  p.wrapInstall = yes ∨ (contains s "make ".toList →
    ∀ line ∈ specialMake anc whole (fromMake s),
      line ∈ specialMake anc s (fromMake s) ∧ List.Sublist (fromMake s) line)

instance (p : Params) (anc : List Node) (whole s : Text) : Decidable (MakeKept p anc whole s) :=
  inferInstanceAs (Decidable (_ ∨ (_ → ∀ line ∈ _, _ ∧ _)))

theorem sublist_outputWrap (s : Text) : List.Sublist s (outputWrap s) := by
  rw [outputWrap_eq, quote]
  conv_lhs => rw [← List.flatMap_singleton' s]
  refine List.Sublist.flatMap_right s fun c _ => ?_
  split_ifs with hc
  · rw [hc]
    decide
  · exact List.Sublist.refl [c]

theorem sublist_stripLine (p : Params) (l : Text) :
    List.Sublist (l ++ ['\n']) (stripLine p l) := by
  rw [stripLine_eq, Treated.text]
  exact ((List.sublist_append_left l _).trans (List.sublist_append_right _ _)).append
    (List.Sublist.refl ['\n'])

theorem sublist_commentStrip (p : Params) (s : Text) : List.Sublist s (commentStrip p s) := by
  have hlines : ∀ ls : List Text,
      List.Sublist (List.intercalate ['\n'] ls) (ls.map (stripLine p)).flatten := by
    intro ls
    induction ls with
    | nil => exact List.Sublist.slnil
    | cons l ls ih =>
      have hl := sublist_stripLine p l
      rw [List.map_cons, List.flatten_cons]
      cases ls with
      | nil =>
        rw [List.intercalate_singleton]
        exact ((List.sublist_append_left l _).trans hl).trans (List.sublist_append_left _ _)
      | cons m ls =>
        rw [List.intercalate_cons_cons]
        exact hl.append ih
  have hs := hlines (s.splitOn '\n')
  rwa [List.intercalate_splitOn, ← commentStrip_eq_lines] at hs

/-! ### The children that are written -/

def isTextItem (i : Item) : Bool := (textItem i).isSome

def texts (f : Xml) : List Node := f.trees.filter fun t => isTextItem t.1

/-- `text()[1]`, the literals, `text()[2]` -/
def emittedChildren (f : Xml) : List Node :=
  (texts f)[0]?.toList ++ (child "literal" f ++ (texts f)[1]?.toList)

/-- The string value is written, as one text. -/
def IsWhole (f : Xml) : Prop :=
  stringValue f = "make mrproper".toList ∨ hasStrip (stringValue f) ∨ child "literal" f = []

instance (f : Xml) : Decidable (IsWhole f) := inferInstanceAs (Decidable (_ ∨ _ ∨ _))

/-- The texts for the two ways of package management. -/
def transformed (p : Params) (anc : List Node) (whole s : Text) : Text :=
  if p.wrapInstall = yes then outputWrap s else render (outputpkgdest anc whole s)

/-- A text is transformed, a literal has a template of its own. -/
def childText (p : Params) (u : Located) (t : Node) : Text :=
  match textItem t.1 with
  | some s => transformed p u.1 (stringValue u.2.2) s
  | none => literalText p (u.2 :: u.1) t

/-- A part of the output: what is written for all children at once, for one child, or a newline
behind them. -/
inductive Piece where
  | whole (text : Text)
  | one (t : Node) (text : Text)
  | newline

def Piece.text : Piece → Text
  | .whole text => text
  | .one _ text => text
  | .newline => ['\n']

def Piece.of (f : Xml) : Piece → List Node
  | .whole _ => f.trees
  | .one t _ => [t]
  | .newline => []

def pieces (p : Params) (u : Located) : List Piece :=
  if stringValue u.2.2 = "make mrproper".toList then [.whole (mrproper u.1)]
  else if hasStrip (stringValue u.2.2) then [.whole (commentStrip p (stringValue u.2.2))]
  else if child "literal" u.2.2 = [] then
    [.whole (transformed p u.1 (stringValue u.2.2) (stringValue u.2.2)), .newline]
  else (emittedChildren u.2.2).map (fun t => .one t (childText p u t)) ++ [.newline]

/-- A part keeps the content of its children, and it is the transformed content of a child by
itself: of a text, or what the template of the literals writes. -/
def Piece.Kept (p : Params) (u : Located) : Piece → Prop
  | .whole text => List.Sublist (stringValue u.2.2) text
  | .one t text =>
    if t.1.isElement "literal" then text = literalText p (u.2 :: u.1) t
    else text = transformed p u.1 (treeValue t) (treeValue t) ∧ List.Sublist (treeValue t) text
  | .newline => True

/-- The parts of the output are written for all children in document order, each child once, and
keep their content. -/
def EachOnce (p : Params) (u : Located) : Prop :=
  (pieces p u).flatMap (Piece.of u.2.2) = u.2.2.trees ∧ ∀ w ∈ pieces p u, w.Kept p u

/-- The texts that are transformed, where all are written. -/
def transformedTexts (f : Xml) : List Text :=
  if stringValue f = "make mrproper".toList ∨ hasStrip (stringValue f) then []
  else if child "literal" f = [] then [stringValue f] else (texts f).map treeValue

theorem transformed_nil (p : Params) (anc : List Node) (whole : Text) :
    transformed p anc whole [] = [] := by
  unfold transformed
  split_ifs
  · rfl
  · rfl

theorem filterMap_eq_map_filter {α β : Type*} (g : α → Option β) (d : β) (l : List α) :
    l.filterMap g = (l.filter fun a => (g a).isSome).map fun a => (g a).getD d := by
  induction l with
  | nil => rfl
  | cons a l ih =>
    rw [List.filterMap_cons, List.filter_cons]
    cases hg : g a with
    | none => simpa using ih
    | some b => simpa [hg] using ih

theorem transformed_textChild (p : Params) (u : Located) (n : ℕ) :
    transformed p u.1 (stringValue u.2.2) (textChild (n + 1) u.2.2) =
      (texts u.2.2)[n]?.toList.flatMap (childText p u) := by
  unfold textChild
  rw [filterMap_eq_map_filter _ [], Nat.add_sub_cancel, List.getElem?_map]
  change transformed p u.1 _ ((((texts u.2.2)[n]?).map _).getD []) = _
  cases hn : (texts u.2.2)[n]? with
  | none => exact transformed_nil p u.1 _
  | some t =>
    have ht : isTextItem t.1 = true := (List.mem_filter.mp (List.mem_of_getElem? hn)).2
    obtain ⟨s, hs⟩ := Option.isSome_iff_exists.mp ht
    rw [Option.map_some, Option.getD_some, Option.toList_some, List.flatMap_singleton, childText,
      hs]
    rfl

theorem textItem_of_literal {i : Item} (h : i.isElement "literal") : textItem i = none := by
  obtain ⟨attrs, rfl⟩ := Item.isElement_iff.mp h
  rfl

theorem literalsText_children (p : Params) (u : Located) :
    literalsText p u = (child "literal" u.2.2).flatMap (childText p u) := by
  unfold literalsText child
  rw [literals_eq]
  induction u.2.2.trees with
  | nil => rfl
  | cons t ts ih =>
    rw [List.flatMap_cons, ih, List.filter_cons]
    by_cases ht : t.1.isElement "literal"
    · rw [if_pos ht, if_pos ht, List.flatMap_cons, childText, textItem_of_literal ht]
    · rw [if_neg ht, if_neg ht]
      rfl

/-- An install command of the final chapters with package management, of texts and
literals. -/
structure IsPackagedInstall (p : Params) (u : Located) : Prop where
  user : u.2.1.isElement "userinput"
  install : remap u.2 = some "install".toList
  final : inFinalChapter u.1
  managed : p.pkgmngt = yes
  mixed : ∀ t ∈ u.2.2.trees, isTextItem t.1 ∧ t.2 = .nil ∨ t.1.isElement "literal"

theorem render_plain {p : Params} {anc : List Node} {u : Node} (hno : p.pkgmngt ≠ no)
    (hl : child "literal" u.2 = []) (inner literals : Text) :
    render (installCommand p anc u inner literals) =
      transformed p anc (stringValue u.2) (stringValue u.2) ++ ['\n'] := by
  unfold installCommand transformed
  dsimp only
  rw [if_neg hno, if_neg (not_not.mpr hl), if_neg (not_not.mpr hl)]
  split_ifs
  · exact List.append_nil _
  · exact List.flatMap_append

theorem render_literals {p : Params} {anc : List Node} {u : Node} (hno : p.pkgmngt ≠ no)
    (hl : child "literal" u.2 ≠ []) (inner literals : Text) :
    render (installCommand p anc u inner literals) =
      transformed p anc (stringValue u.2) (textChild 1 u.2) ++
        (literals ++ (transformed p anc (stringValue u.2) (textChild 2 u.2) ++ ['\n'])) := by
  unfold installCommand transformed
  dsimp only
  rw [if_neg hno, if_pos hl, if_pos hl]
  split_ifs
  · exact List.append_nil _
  · unfold render
    rw [List.flatMap_append, List.flatMap_cons, List.flatMap_append]
    rfl

theorem applyTo_pieces {p : Params} {u : Located} (h : IsPackagedInstall p u) :
    applyTo p u = (pieces p u).flatMap Piece.text := by
  have hno : p.pkgmngt ≠ no := by
    rw [h.managed]
    exact yes_ne_no
  rw [applyTo_userinput p h.user, commandOut, userinput_install h.install h.final, pieces]
  by_cases hm : stringValue u.2.2 = "make mrproper".toList
  · rw [if_pos hm, if_pos hm]
    rfl
  by_cases hs : hasStrip (stringValue u.2.2)
  · rw [if_neg hm, if_pos hs, if_neg hm, if_pos hs]
    rfl
  by_cases hl : child "literal" u.2.2 = []
  · rw [if_neg hm, if_neg hs, if_neg hm, if_neg hs, if_pos hl, render_plain hno hl]
    rfl
  · have hliterals := literalsText_children p u
    unfold literalsText at hliterals
    rw [if_neg hm, if_neg hs, if_neg hm, if_neg hs, if_neg hl, render_literals hno hl, hliterals,
      transformed_textChild p u 0, transformed_textChild p u 1, emittedChildren,
      List.flatMap_append, List.flatMap_map, List.flatMap_append, List.flatMap_append]
    simp only [List.append_assoc]
    rfl

/-! ### The order of the children -/

/-- Literals only, or one text, the literals and at most one more text. -/
def TextsAround (f : Xml) : Prop :=
  ∃ a ls b, f.trees = a ++ (ls ++ b) ∧ (∀ t ∈ ls, t.1.isElement "literal") ∧
    (a = [] ∧ b = [] ∨
      (∃ t, a = [t] ∧ isTextItem t.1) ∧ (b = [] ∨ ∃ t, b = [t] ∧ isTextItem t.1))

theorem not_text_of_literal {t : Node} (h : t.1.isElement "literal") : isTextItem t.1 = false := by
  unfold isTextItem
  rw [textItem_of_literal h]
  rfl

theorem not_literal_of_text {t : Node} (h : isTextItem t.1) : t.1.isElement "literal" = false := by
  rw [Bool.eq_false_iff]
  intro hl
  rw [not_text_of_literal hl] at h
  cases h

theorem emittedChildren_eq_iff (f : Xml) : emittedChildren f = f.trees ↔ TextsAround f := by
  have htext : ∀ t ∈ texts f, isTextItem t.1 := fun t ht => (List.mem_filter.mp ht).2
  constructor
  · intro h
    refine ⟨_, _, _, h.symm, fun t ht => (List.mem_filter.mp ht).2, ?_⟩
    cases hts : texts f with
    | nil => exact .inl ⟨rfl, rfl⟩
    | cons t ts =>
      rw [hts] at htext
      refine .inr ⟨⟨t, rfl, htext t List.mem_cons_self⟩, ?_⟩
      cases ts with
      | nil => exact .inl rfl
      | cons t' ts => exact .inr ⟨t', rfl, htext t' (List.mem_cons_of_mem _ List.mem_cons_self)⟩
  · rintro ⟨a, ls, b, hf, hls, hab⟩
    have htexts : ∀ x : List Node, (∀ t ∈ x, isTextItem t.1) →
        (x.filter fun t => isTextItem t.1) = x ∧
          (x.filter fun t => t.1.isElement "literal") = [] := by
      intro x hx
      refine ⟨List.filter_eq_self.mpr hx, List.filter_eq_nil_iff.mpr fun t ht => ?_⟩
      rw [not_literal_of_text (hx t ht)]
      exact Bool.false_ne_true
    have hliterals : (ls.filter fun t => isTextItem t.1) = [] ∧
        (ls.filter fun t => t.1.isElement "literal") = ls := by
      refine ⟨List.filter_eq_nil_iff.mpr fun t ht => ?_, List.filter_eq_self.mpr hls⟩
      rw [not_text_of_literal (hls t ht)]
      exact Bool.false_ne_true
    have hall : (∀ t ∈ a, isTextItem t.1) ∧ ∀ t ∈ b, isTextItem t.1 := by
      rcases hab with ⟨rfl, rfl⟩ | ⟨⟨t, rfl, ht⟩, rfl | ⟨t', rfl, ht'⟩⟩
      · simp
      · simpa using ht
      · simpa using ⟨ht, ht'⟩
    have htextsf : texts f = a ++ b := by
      unfold texts
      rw [hf, List.filter_append, List.filter_append, (htexts a hall.1).1, (htexts b hall.2).1,
        hliterals.1, List.nil_append]
    have hchild : child "literal" f = ls := by
      unfold child
      rw [hf, List.filter_append, List.filter_append, (htexts a hall.1).2, (htexts b hall.2).2,
        hliterals.2, List.nil_append, List.append_nil]
    unfold emittedChildren
    rw [htextsf, hchild, hf]
    rcases hab with ⟨rfl, rfl⟩ | ⟨⟨t, rfl, -⟩, rfl | ⟨t', rfl, -⟩⟩
    · rfl
    · rfl
    · rfl

/-! ### What is kept of the children -/

/-- A text is transformed as if it were the command, and nothing of it is lost. -/
theorem kept_iff_makeKept {p : Params} {anc : List Node} {whole s : Text} :
    transformed p anc whole s = transformed p anc s s ∧
        List.Sublist s (transformed p anc whole s) ↔ MakeKept p anc whole s := by
  unfold transformed MakeKept
  by_cases hw : p.wrapInstall = yes
  · rw [if_pos hw, if_pos hw]
    exact iff_of_true ⟨rfl, sublist_outputWrap s⟩ (.inl hw)
  rw [if_neg hw, if_neg hw, or_iff_right hw]
  by_cases hmake : contains s "make ".toList
  swap
  · refine iff_of_true ⟨?_, sublist_outputpkgdest fun h => absurd h hmake⟩ fun h => absurd h hmake
    rw [outputpkgdest_whole s fun h => absurd h hmake]
  cases hline : specialMake anc whole (fromMake s) with
  | none =>
    refine iff_of_true ⟨?_, sublist_outputpkgdest fun _ => hline⟩
      fun _ line h => (Option.not_mem_none line h).elim
    rw [outputpkgdest_whole s fun _ => hline]
  | some line =>
    obtain ⟨own, hown⟩ : ∃ own, specialMake anc s (fromMake s) = some own := by
      by_contra! hno
      have hnone := specialMake_whole whole (Option.eq_none_iff_forall_ne_some.mpr hno)
      rw [hline] at hnone
      cases hnone
    have hbefore : outputpkgdest anc whole (substringBefore s "make".toList) =
        outputpkgdest anc s (substringBefore s "make".toList) :=
      outputpkgdestFuel_whole s (not_contains_beforeMake hmake)
    rw [sublist_special_iff hmake hline, render_special hmake hline, render_special hmake hown,
      hbefore, List.append_cancel_left_eq, hown]
    constructor
    · rintro ⟨rfl, h⟩ _ line' hline'
      obtain rfl := Option.some.inj hline'
      exact ⟨rfl, h⟩
    · intro h
      obtain ⟨hsame, hkept⟩ := h hmake line rfl
      exact ⟨(Option.some.inj hsame).symm, hkept⟩

theorem kept_literal {p : Params} {u : Located} {t : Node} (h : t.1.isElement "literal") :
    (Piece.one t (childText p u t)).Kept p u := by
  rw [Piece.Kept, if_pos h, childText, textItem_of_literal h]

theorem kept_text_iff {p : Params} {u : Located} {t : Node} (h : isTextItem t.1)
    (hnil : t.2 = .nil) :
    (Piece.one t (childText p u t)).Kept p u ↔
      MakeKept p u.1 (stringValue u.2.2) (treeValue t) := by
  obtain ⟨s, hs⟩ := Option.isSome_iff_exists.mp h
  have hvalue : treeValue t = s := by
    rw [treeValue, textItem_eq_some hs, hnil]
    exact List.append_nil s
  have htext : childText p u t = transformed p u.1 (stringValue u.2.2) s := by
    rw [childText, hs]
  rw [Piece.Kept, if_neg (Bool.eq_false_iff.mp (not_literal_of_text h)), hvalue, htext,
    kept_iff_makeKept]

/-- The children are written once and in document order, and nothing of them is lost. -/
def ChildrenInOrder (p : Params) (u : Located) : Prop :=
  (IsWhole u.2.2 ∨ TextsAround u.2.2) ∧
    ∀ s ∈ transformedTexts u.2.2, MakeKept p u.1 (stringValue u.2.2) s

theorem eachOnce_literals_iff {p : Params} {u : Located} (h : IsPackagedInstall p u)
    (hw : ¬ IsWhole u.2.2) : EachOnce p u ↔ ChildrenInOrder p u := by
  obtain ⟨hm, hs, hl⟩ : _ ∧ _ ∧ _ := ⟨fun h => hw (.inl h), fun h => hw (.inr (.inl h)),
    fun h => hw (.inr (.inr h))⟩
  have hof : (pieces p u).flatMap (Piece.of u.2.2) = emittedChildren u.2.2 := by
    rw [pieces, if_neg hm, if_neg hs, if_neg hl, List.flatMap_append, List.flatMap_map]
    exact (List.append_nil _).trans (List.flatMap_singleton' _)
  have hkept : (∀ w ∈ pieces p u, w.Kept p u) ↔
      ∀ t ∈ emittedChildren u.2.2, (Piece.one t (childText p u t)).Kept p u := by
    rw [pieces, if_neg hm, if_neg hs, if_neg hl, List.forall_mem_append, List.forall_mem_map]
    exact and_iff_left (List.forall_mem_singleton.mpr trivial)
  have htexts : transformedTexts u.2.2 = (texts u.2.2).map treeValue := by
    rw [transformedTexts, if_neg (not_or.mpr ⟨hm, hs⟩), if_neg hl]
  unfold EachOnce ChildrenInOrder
  rw [hof, hkept, or_iff_right hw, htexts, List.forall_mem_map, ← emittedChildren_eq_iff]
  refine and_congr_right fun hall => ?_
  rw [hall]
  constructor
  · intro hpieces t ht
    obtain ⟨hmem, htext⟩ := List.mem_filter.mp ht
    rcases h.mixed t hmem with ⟨-, hnil⟩ | hliteral
    · exact (kept_text_iff htext hnil).mp (hpieces t hmem)
    · rw [not_text_of_literal hliteral] at htext
      cases htext
  · intro hmakes t hmem
    rcases h.mixed t hmem with ⟨htext, hnil⟩ | hliteral
    · exact (kept_text_iff htext hnil).mpr (hmakes t (List.mem_filter.mpr ⟨hmem, htext⟩))
    · exact kept_literal hliteral

theorem sublist_applyTo {p : Params} {u : Located} (h : IsPackagedInstall p u)
    (hw : ¬ IsWhole u.2.2) (heach : EachOnce p u) :
    List.Sublist (content p (u.2 :: u.1) u.2.2) (applyTo p u) := by
  obtain ⟨hm, hs, hl⟩ : _ ∧ _ ∧ _ := ⟨fun h => hw (.inl h), fun h => hw (.inr (.inl h)),
    fun h => hw (.inr (.inr h))⟩
  obtain ⟨hof, hkept⟩ := heach
  rw [applyTo_pieces h, content, ← hof, List.flatMap_assoc]
  refine List.Sublist.flatMap_right _ fun w hmem => ?_
  have hw' := hkept w hmem
  rw [pieces, if_neg hm, if_neg hs, if_neg hl, List.mem_append, List.mem_map,
    List.mem_singleton] at hmem
  rcases hmem with ⟨t, -, rfl⟩ | rfl
  · rw [Piece.of, List.flatMap_singleton]
    rw [Piece.Kept] at hw'
    split_ifs at hw' ⊢ with hliteral
    · rw [Piece.text, hw']
    · exact hw'.2
  · exact List.nil_sublist _

def mixedUserinput (sect : String) (f : Xml) : Located :=
  ([(.element "screen" [], .nil), (.element "sect1" [("id", sect.toList)], .nil),
    (.element "chapter" [("id", "chapter-building-system".toList)], .nil)],
    (.element "userinput" [("remap", "install".toList)], f))

def packagedParams (wrap : Text) : Params := { pkgmngt := yes, wrapInstall := wrap }

theorem isPackagedInstall_mixed {wrap : Text} {sect : String} {f : Xml}
    (h : ∀ t ∈ f.trees, isTextItem t.1 ∧ t.2 = .nil ∨ t.1.isElement "literal") :
    IsPackagedInstall (packagedParams wrap) (mixedUserinput sect f) :=
  ⟨Item.isElement_iff.mpr ⟨_, rfl⟩, rfl, rfl, rfl, h⟩

def profileCommand : Xml :=
  textNode "make install > /dev/null\ncat > /etc/profile << 1\n"
    (literalNode "PATH=/bin" (textNode "\n1" .nil))

def twiceCommand : Xml :=
  textNode "a=" (literalNode "1" (textNode ";b=" (literalNode "2" (textNode ";c" .nil))))

/-- In a section without `DESTDIR`, what comes after the first `make` is lost. -/
example : applyTo (packagedParams no) (mixedUserinput "ch-system-bzip2"
      (textNode "make install\nln -s bzip2 bunzip2" .nil)) =
    "make -j1 PREFIX=$PKG_DEST/usr install\n\n".toList := by decide +kernel

end HaoosLfs.Book
