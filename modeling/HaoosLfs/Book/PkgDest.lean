import HaoosLfs.Book.Userinput

/-!
# Installing below `$PKG_DEST` or not (`lfs.xsl:437-504`, `907-1022`)

An install command of the final chapters is written with one `-j1` and nothing else, or
rewritten to install below `$PKG_DEST`. What is left of the second form without what is
inserted in it is compared with the first.
-/

namespace HaoosLfs.Book
open Text

/-! ### The first `make` -/

theorem make_no_overlap {x a b : Text} (h : "make".toList ++ a = x ++ ("make".toList ++ b))
    (hx : x ≠ []) : ∃ y, a = y ++ ("make".toList ++ b) := by
  have hmake : "make".toList = ['m', 'a', 'k', 'e'] := by decide
  rw [hmake] at h ⊢
  match x, h with
  | [], _ => exact absurd rfl hx
  | [_], h => simp at h
  | [_, _], h => simp at h
  | [_, _, _], h => simp at h
  | _ :: _ :: _ :: _ :: y, h =>
    simp only [List.cons_append, List.nil_append, List.cons.injEq] at h
    exact ⟨y, h.2.2.2.2⟩

theorem contains_make_space {s : Text} :
    contains s "make ".toList ↔ ∃ x y, s = x ++ ("make".toList ++ ' ' :: y) := by
  have hspace : "make ".toList = "make".toList ++ [' '] := by decide
  rw [contains_iff, hspace]
  simp only [List.append_assoc, List.singleton_append]

theorem first_make {s b a : Text} (h : contains s "make ".toList)
    (hfirst : splitFirst "make".toList s = some (b, a)) :
    (∃ y, a = ' ' :: y) ∨ contains a "make ".toList := by
  obtain ⟨x, y, hs⟩ := contains_make_space.mp h
  obtain ⟨hs', hle⟩ := splitFirst_eq_some_iff.mp hfirst
  have hlen := hle x _ hs
  rw [hs'] at hs
  obtain ⟨x', rfl⟩ : b <+: x :=
    List.prefix_of_prefix_length_le ⟨_, hs⟩ ⟨_, rfl⟩ hlen
  rw [List.append_assoc] at hs
  have hs := List.append_cancel_left hs
  by_cases hx : x' = []
  · rw [hx, List.nil_append] at hs
    exact .inl ⟨y, List.append_cancel_left hs⟩
  · obtain ⟨z, hz⟩ := make_no_overlap hs hx
    exact .inr (contains_make_space.mpr ⟨z, y, hz⟩)

theorem exists_first_make {s : Text} (h : contains s "make ".toList) :
    ∃ b a, splitFirst "make".toList s = some (b, a) := by
  obtain ⟨x, y, rfl⟩ := contains_make_space.mp h
  obtain ⟨b, a, hba, -⟩ := splitFirst_append "make".toList x (' ' :: y)
  exact ⟨b, a, hba⟩

theorem not_contains_before {s b a : Text} (hfirst : splitFirst "make".toList s = some (b, a)) :
    contains b "make ".toList = false := by
  rw [Bool.eq_false_iff]
  intro h
  obtain ⟨x, y, rfl⟩ := contains_make_space.mp h
  obtain ⟨hs, hle⟩ := splitFirst_eq_some_iff.mp hfirst
  have hlen := hle x (' ' :: y ++ ("make".toList ++ a)) (by rw [hs]; simp only [List.append_assoc])
  rw [List.length_append, List.length_append, List.length_cons] at hlen
  omega

theorem length_first_make {s b a : Text} (hfirst : splitFirst "make".toList s = some (b, a)) :
    s.length = b.length + (4 + a.length) := by
  have hword : "make".toList.length = 4 := by decide
  rw [splitFirst_eq_some hfirst, List.length_append, List.length_append, hword]

theorem length_makeCall (b a : Text) :
    (b ++ ("make -j1".toList ++ a)).length = b.length + (8 + a.length) := by
  have hcall : "make -j1".toList.length = 8 := by decide
  rw [List.length_append, List.length_append, hcall]

/-! ### What is left of the rewritten command -/

theorem erase_inserted (t u : Text) : erase [.text t, .inserted u] = t := by
  simp [erase, Out.erase]

theorem erase_dest (b : Text) (c : Char) (ps : List Out) :
    erase ([.text b, .text [c], .inserted pkgDest, .text ['/']] ++ ps) =
      b ++ ([c, '/'] ++ erase ps) := by
  rw [erase_append]
  simp [erase, Out.erase]

section
variable {call : Text → List Out} {s : Text}

theorem erase_pkgdestNinja (hninja : contains s "ninja install".toList)
    (hcall : ∀ x y z, s = x ++ (y ++ z) → y.length < s.length → erase (call y) = y) :
    erase (pkgdestNinja call s) = s := by
  unfold pkgdestNinja
  by_cases hstart : "ninja install".toList.isPrefixOf s
  · have hno : ¬ (!"ninja install".toList.isPrefixOf s) = true := by
      rw [hstart]
      decide
    have hsplit : "ninja install".toList = "ninja".toList ++ " install".toList := by decide
    have hword : "ninja".toList.length = 5 := by decide
    obtain ⟨rest, hrest⟩ := List.isPrefixOf_iff_prefix.mp hstart
    rw [hsplit, List.append_assoc] at hrest
    have hlen := congrArg List.length hrest
    rw [List.length_append] at hlen
    have hafter := hcall "ninja".toList _ [] (by rw [List.append_nil, hrest]) (by omega)
    rw [if_neg hno, erase_append, ← hrest, substringAfter_self_append, hafter]
    rfl
  · have hyes : (!"ninja install".toList.isPrefixOf s) = true := by
      rw [Bool.eq_false_iff.mpr hstart]
      rfl
    have hword : "ninja install".toList.length = 13 := by decide
    have hs := before_key_after hninja
    have hlen := congrArg List.length hs
    have hpos := List.length_pos_of_ne_nil (substringBefore_ne_nil hninja hstart)
    rw [List.length_append, List.length_append] at hlen
    have hbefore := hcall [] _ _ hs (by omega)
    have hafter := hcall _ _ [] (by rw [List.append_nil]; exact hs)
      (by rw [List.length_append]; omega)
    rw [if_pos hyes, erase_append, substringAfter_before hninja, hbefore, hafter]
    exact hs.symm

theorem erase_pkgdestPath
    (hcall : ∀ x y z, s = x ++ (y ++ z) → y.length < s.length → erase (call y) = y) :
    erase (pkgdestPath call s) = s := by
  have hdest : ∀ (k : Text) (c : Char), k = [c, '/'] → contains s k →
      erase ([.text (substringBefore s k), .text [c], .inserted pkgDest, .text ['/']] ++
        call (substringAfter s k)) = s := by
    intro k c hk hkey
    have hs := before_key_after hkey
    have hlen := congrArg List.length hs
    have hword : k.length = 2 := by
      rw [hk]
      rfl
    rw [List.length_append, List.length_append] at hlen
    have hafter := hcall _ _ [] (by rw [List.append_nil, List.append_assoc]; exact hs) (by omega)
    rw [erase_dest, hafter, ← hk]
    exact hs.symm
  unfold pkgdestPath
  split_ifs with hredirect hpath
  · have hword : ">/".toList = ['>', '/'] := by decide
    exact hdest _ '>' hword (Bool.and_eq_true_iff.mp hredirect).1
  · have hword : " /".toList = [' ', '/'] := by decide
    exact hdest _ ' ' hword hpath
  · exact List.append_nil s

theorem erase_pkgdestMake_start {anc : List Node} {whole t : Text}
    (hspecial : ∀ t, specialMake anc whole t = none) :
    erase (pkgdestMake call anc whole ("make".toList ++ t)) =
      "make -j1".toList ++ erase (call t) := by
  have hno : ¬ (!"make".toList.isPrefixOf ("make".toList ++ t)) = true := by
    rw [List.isPrefixOf_iff_prefix.mpr ⟨t, rfl⟩]
    decide
  rw [pkgdestMake, if_neg hno, hspecial, substringAfter_self_append]
  dsimp only
  rw [erase_append, erase_inserted]

theorem erase_pkgdestMake_later {anc : List Node} {whole b a : Text}
    (hfirst : splitFirst "make".toList s = some (b, a)) (hb : b ≠ []) :
    erase (pkgdestMake call anc whole s) = erase (call b) ++ erase (call ("make".toList ++ a)) := by
  have hlater : "make".toList.isPrefixOf s = false := by
    rw [Bool.eq_false_iff]
    intro h
    obtain ⟨t, ht⟩ := List.isPrefixOf_iff_prefix.mp h
    rw [← ht, splitFirst_self_append] at hfirst
    exact hb (Prod.mk.inj (Option.some.inj hfirst)).1.symm
  have hyes : (!"make".toList.isPrefixOf s) = true := by
    rw [hlater]
    rfl
  have hbefore : substringBefore s "make".toList = b := (substring_of_splitFirst hfirst).1
  have hafter : substringAfter s b = "make".toList ++ a := by
    rw [splitFirst_eq_some hfirst]
    exact substringAfter_self_append b _
  rw [pkgdestMake, if_pos hyes, erase_append, hbefore, hafter]

end

section
variable {anc : List Node} {whole : Text}

theorem erase_no_make {n : ℕ} {s : Text} (hmake : contains s "make ".toList = false)
    (hn : s.length ≤ n) : erase (outputpkgdestFuel anc whole n s) = s := by
  induction n generalizing s with
  | zero => exact List.append_nil s
  | succ n ih =>
    have hcall : ∀ x y z, s = x ++ (y ++ z) → y.length < s.length →
        erase (outputpkgdestFuel anc whole n y) = y := by
      intro x y z hs hy
      refine ih ?_ (by omega)
      rw [Bool.eq_false_iff] at hmake ⊢
      intro hc
      rw [hs] at hmake
      exact hmake (contains_append hc x z)
    rw [outputpkgdestFuel, if_neg (Bool.eq_false_iff.mp hmake)]
    by_cases hninja : contains s "ninja install".toList
    · rw [if_pos hninja]
      exact erase_pkgdestNinja hninja hcall
    · rw [if_neg hninja]
      exact erase_pkgdestPath hcall

theorem erase_make (hspecial : ∀ t, specialMake anc whole t = none) {n : ℕ} {s b a : Text}
    (hmake : contains s "make ".toList) (hfirst : splitFirst "make".toList s = some (b, a))
    (hn : s.length ≤ n) :
    ∃ m, a.length ≤ m ∧ erase (outputpkgdestFuel anc whole n s) =
      b ++ ("make -j1".toList ++ erase (outputpkgdestFuel anc whole m a)) := by
  have hs := splitFirst_eq_some hfirst
  have hlen := length_first_make hfirst
  have hrest : contains ("make".toList ++ a) "make ".toList := by
    rcases first_make hmake hfirst with ⟨y, rfl⟩ | ha
    · exact contains_make_space.mpr ⟨[], y, rfl⟩
    · have hc := contains_append ha "make".toList []
      rwa [List.append_nil] at hc
  by_cases hb : b = []
  · obtain ⟨m, rfl⟩ : ∃ m, n = m + 1 := ⟨n - 1, by omega⟩
    refine ⟨m, by omega, ?_⟩
    rw [outputpkgdestFuel, if_pos hmake]
    rw [hb, List.nil_append] at hs ⊢
    rw [hs]
    exact erase_pkgdestMake_start hspecial
  · -- the call for the text from the `make` on makes another one behind it
    have hpos := List.length_pos_of_ne_nil hb
    obtain ⟨m, rfl⟩ : ∃ m, n = m + 2 := ⟨n - 2, by omega⟩
    refine ⟨m, by omega, ?_⟩
    rw [outputpkgdestFuel, if_pos hmake, erase_pkgdestMake_later hfirst hb,
      erase_no_make (not_contains_before hfirst) (by omega), outputpkgdestFuel, if_pos hrest,
      erase_pkgdestMake_start hspecial]

theorem length_erase (hspecial : ∀ t, specialMake anc whole t = none) {n : ℕ} {s : Text}
    (hn : s.length ≤ n) :
    s.length ≤ (erase (outputpkgdestFuel anc whole n s)).length ∧
      (contains s "make ".toList →
        s.length + 4 ≤ (erase (outputpkgdestFuel anc whole n s)).length) := by
  induction hk : s.length using Nat.strong_induction_on generalizing s n with
  | _ k ih =>
    by_cases hmake : contains s "make ".toList
    · obtain ⟨b, a, hfirst⟩ := exists_first_make hmake
      obtain ⟨m, hm, he⟩ := erase_make hspecial hmake hfirst hn
      have hlen := length_first_make hfirst
      have ha := (ih a.length (by omega) hm rfl).1
      rw [he, length_makeCall]
      exact ⟨by omega, fun _ => by omega⟩
    · rw [erase_no_make (Bool.eq_false_iff.mpr hmake) hn, hk]
      exact ⟨Nat.le_refl _, fun h => absurd h hmake⟩

end

/-! ### The command without package management -/

theorem makeJ1_eq {s b y : Text} (hfirst : splitFirst "make".toList s = some (b, ' ' :: y)) :
    makeJ1 s = b ++ ("make -j1".toList ++ ' ' :: y) := by
  have hspace : "make ".toList = "make".toList ++ [' '] := by decide
  have hj1 : "make -j1 ".toList = "make -j1".toList ++ [' '] := by decide
  have hcall : splitFirst "make ".toList s = some (b, y) := by
    obtain ⟨hs, hle⟩ := splitFirst_eq_some_iff.mp hfirst
    refine splitFirst_eq_some_iff.mpr ⟨?_, fun x z hx => hle x (' ' :: z) ?_⟩
    · rw [hs, hspace, List.append_assoc, List.singleton_append]
    · rw [hx, hspace, List.append_assoc, List.singleton_append]
  obtain ⟨hbefore, hafter⟩ := substring_of_splitFirst hcall
  unfold makeJ1
  rw [hbefore, hafter, hj1, List.append_assoc, List.singleton_append]

theorem length_makeJ1 {s : Text} (h : contains s "make ".toList) :
    (makeJ1 s).length = s.length + 4 := by
  have hlen := congrArg List.length (before_key_after h)
  have hcall : "make ".toList.length = 5 := by decide
  have hj1 : "make -j1 ".toList.length = 9 := by decide
  rw [List.length_append, List.length_append, hcall] at hlen
  unfold makeJ1
  rw [List.length_append, List.length_append, hj1]
  omega

theorem erase_iff {anc : List Node} {whole s : Text}
    (hspecial : ∀ t, specialMake anc whole t = none) :
    erase (outputpkgdest anc whole s) = (if contains s "make ".toList then makeJ1 s else s) ↔
      contains (substringAfter s "make".toList) "make ".toList = false := by
  unfold outputpkgdest
  by_cases hmake : contains s "make ".toList
  · obtain ⟨b, a, hfirst⟩ := exists_first_make hmake
    obtain ⟨m, hm, he⟩ := erase_make hspecial hmake hfirst (Nat.le_refl _)
    have hafter : substringAfter s "make".toList = a := (substring_of_splitFirst hfirst).2
    rw [if_pos hmake, he, hafter]
    by_cases ha : contains a "make ".toList
    · -- there is one `-j1` more
      have hlen := length_first_make hfirst
      have hrest := (length_erase hspecial hm).2 ha
      have hplain := length_makeJ1 hmake
      rw [ha]
      refine iff_of_false (fun h => ?_) Bool.noConfusion
      have hsame := congrArg List.length h
      rw [length_makeCall] at hsame
      omega
    · rcases first_make hmake hfirst with ⟨y, rfl⟩ | hc
      · have ha' := Bool.eq_false_iff.mpr ha
        rw [erase_no_make ha' hm, makeJ1_eq hfirst]
        exact iff_of_true rfl ha'
      · exact absurd hc ha
  · have hmake' := Bool.eq_false_iff.mpr hmake
    rw [if_neg hmake, erase_no_make hmake' (Nat.le_refl _)]
    refine iff_of_true rfl ?_
    rw [Bool.eq_false_iff]
    intro h
    apply hmake
    by_cases hword : contains s "make".toList
    · have hs := before_key_after hword
      rw [hs]
      have hc := contains_append h (substringBefore s "make".toList ++ "make".toList) []
      rwa [List.append_nil, List.append_assoc] at hc
    · unfold substringAfter at h
      rw [Option.not_isSome_iff_eq_none.mp hword] at h
      exact absurd h (by decide)

/-! ### Commands -/

def TextOnly (f : Xml) : Prop :=
  ∀ t ∈ f.trees, t.2 = .nil ∧ ∀ name attrs, t.1 ≠ .element name attrs

theorem applyTemplates_text (p : Params) (anc : List Node) {f : Xml} (h : TextOnly f) :
    applyTemplates p (fun _ => true) anc f = stringValue f := by
  induction f with
  | nil => rfl
  | node i cs ss _ ihs =>
    obtain ⟨hcs, hi⟩ := h (i, cs) List.mem_cons_self
    have hss := ihs fun t ht => h t (List.mem_cons_of_mem _ ht)
    dsimp only at hcs hi
    rw [applyTemplates, hss, hcs]
    cases i with
    | element name attrs => exact absurd rfl (hi name attrs)
    | text t => rfl
    | pi target data => rfl
    | comment t => rfl

theorem no_literal {f : Xml} (h : TextOnly f) : child "literal" f = [] := by
  refine List.filter_eq_nil_iff.mpr fun t ht hi => ?_
  obtain ⟨attrs, hi⟩ := Item.isElement_iff.mp hi
  exact (h t ht).2 "literal" attrs hi

/-- The sections whose `make` lines are written in another way. -/
def specialSections : List Text :=
  ["ch-system-glibc".toList, "ch-system-bzip2".toList, "ch-system-sysklogd".toList,
    "ch-system-iproute2".toList, "ch-system-sysvinit".toList, "ch-bootable-kernel".toList]

theorem specialMake_eq_none {anc : List Node}
    (h : hasAncestor anc "sect1" specialSections = false) (whole s : Text) :
    specialMake anc whole s = none := by
  have hno : ∀ id : String, id.toList ∈ specialSections → inSect1 anc id = false := by
    intro id hid
    rw [Bool.eq_false_iff] at h ⊢
    intro hin
    apply h
    obtain ⟨n, hn, hn'⟩ := List.any_eq_true.mp hin
    refine List.any_eq_true.mpr ⟨n, hn, ?_⟩
    rw [Bool.and_eq_true] at hn' ⊢
    refine ⟨hn'.1, ?_⟩
    have hsect := hn'.2
    cases hi : n.1.attr "id" with
    | none =>
      rw [hi] at hsect
      cases hsect
    | some i =>
      rw [hi] at hsect
      have hmem := List.mem_singleton.mp (of_decide_eq_true hsect)
      exact decide_eq_true (by rw [hmem]; exact hid)
  unfold specialMake
  dsimp only
  rw [hno "ch-system-glibc" (by decide), hno "ch-system-bzip2" (by decide),
    hno "ch-system-sysklogd" (by decide), hno "ch-system-iproute2" (by decide),
    hno "ch-system-sysvinit" (by decide), hno "ch-bootable-kernel" (by decide)]
  rfl

def packaged (p : Params) : Params := { p with pkgmngt := yes, wrapInstall := no }
def unpackaged (p : Params) : Params := { p with pkgmngt := no }

/-- Without what is inserted for `$PKG_DEST`, the two modes write the same. -/
def ModesAgree (p : Params) (u : Located) : Prop :=
  erase (commandOut (packaged p) u) = applyTo (unpackaged p) u

/-- An install command of the final chapters with only text, outside the special sections
and without a special text. -/
structure IsInstallText (u : Located) : Prop where
  user : u.2.1.isElement "userinput"
  install : remap u.2 = some "install".toList
  final : inFinalChapter u.1
  textOnly : TextOnly u.2.2
  noSection : hasAncestor u.1 "sect1" specialSections = false
  noFirmware : contains (stringValue u.2.2) "firmware,udev".toList = false
  noStrip : hasStrip (stringValue u.2.2) = false

/-- For every such command, the two modes agree exactly when no `make ` comes after the
first `make`. -/
theorem modes_agree_iff (p : Params) {u : Located} (h : IsInstallText u) :
    ModesAgree p u ↔
      contains (substringAfter (stringValue u.2.2) "make".toList) "make ".toList = false := by
  have hyes : (packaged p).pkgmngt ≠ no := yes_ne_no
  have hwrap : (packaged p).wrapInstall ≠ yes := yes_ne_no.symm
  have hno : (unpackaged p).pkgmngt = no := rfl
  unfold ModesAgree
  rw [applyTo_userinput _ h.user, commandOut, commandOut, userinput_install h.install h.final,
    userinput_install h.install h.final]
  by_cases hm : stringValue u.2.2 = "make mrproper".toList
  · rw [if_pos hm, if_pos hm, hm]
    exact iff_of_true rfl (by decide +kernel)
  · have hplain : render (installCommand (unpackaged p) u.1 u.2
        (applyTemplates (unpackaged p) (fun _ => true) (u.2 :: u.1) u.2.2)
        (applyTemplates (unpackaged p) (Item.isElement "literal") (u.2 :: u.1) u.2.2)) =
        (if contains (stringValue u.2.2) "make ".toList then makeJ1 (stringValue u.2.2)
          else stringValue u.2.2) ++ ['\n'] := by
      unfold installCommand
      dsimp only
      rw [if_pos hno, if_neg (Bool.eq_false_iff.mp h.noFirmware),
        applyTemplates_text _ _ h.textOnly]
      split_ifs
      · exact List.append_nil _
      · exact List.append_nil _
    have hpackaged : erase (installCommand (packaged p) u.1 u.2
        (applyTemplates (packaged p) (fun _ => true) (u.2 :: u.1) u.2.2)
        (applyTemplates (packaged p) (Item.isElement "literal") (u.2 :: u.1) u.2.2)) =
        erase (outputpkgdest u.1 (stringValue u.2.2) (stringValue u.2.2)) ++ ['\n'] := by
      unfold installCommand
      dsimp only
      rw [if_neg hyes, if_neg hwrap, if_neg (not_not.mpr (no_literal h.textOnly)), erase_append]
      rfl
    have hs : ¬ hasStrip (stringValue u.2.2) = true := Bool.eq_false_iff.mp h.noStrip
    rw [if_neg hm, if_neg hs, if_neg hm, if_neg hs, hplain, hpackaged, List.append_left_inj]
    exact erase_iff (specialMake_eq_none h.noSection _)

/-! ### Two commands -/

def installUserinput (s : String) : Located :=
  ([(.element "screen" [], .nil), (.element "sect1" [("id", "ch-system-bash".toList)], .nil),
    (.element "chapter" [("id", "chapter-building-system".toList)], .nil)],
    (.element "userinput" [("remap", "install".toList)], .node (.text s.toList) .nil .nil))

theorem textOnly_installUserinput (s : String) : TextOnly (installUserinput s).2.2 := by
  intro t ht
  rw [List.mem_singleton.mp ht]
  exact ⟨rfl, fun name attrs h => by cases h⟩

theorem modes_agree_bash :
    ModesAgree {} (installUserinput "make install\ncp -v doc /usr/share/doc/bash") :=
  (modes_agree_iff {} ⟨by decide, by decide, by decide, textOnly_installUserinput _, by decide,
    by decide +kernel, by decide +kernel⟩).mpr (by decide +kernel)

/-- The second `make` gets a `-j1` in one mode only. -/
theorem not_modes_agree_twice :
    IsInstallText (installUserinput "make install\nmake install-docs") ∧
      ¬ ModesAgree {} (installUserinput "make install\nmake install-docs") := by
  refine ⟨⟨by decide, by decide, by decide, textOnly_installUserinput _, by decide,
    by decide +kernel, by decide +kernel⟩, ?_⟩
  unfold ModesAgree
  decide +kernel

end HaoosLfs.Book
