import HaoosLfs.Book.Insertions
import HaoosLfs.Lib.ShellWords

/-!
# The command `make` and longer words (`lfs.xsl:907-973`)

An installation is redirected after the word `make`; the template asks only whether a
`make ` comes in the rest of the text.
-/

namespace HaoosLfs.Book
open Text

/-- A character that a word of the shell goes on with; a quotation mark begins or ends one. -/
def wordChar (c : Char) : Bool := !ShellWords.endsWord c && c ∉ ['"', '\'', '\x60']

/-- The `make` between these texts is a part of a longer word. -/
def inLongerWord (before after : Text) : Bool :=
  before.getLast?.any wordChar || after.head?.any wordChar

/-- Insertions after each word `make` that a space follows, and after no `make` of a longer
word. -/
def MakeWords (s : Text) (M : Text → Text → Bool) : Prop :=
  ∀ before after, s = before ++ ("make".toList ++ after) →
    (inLongerWord before after = false ∧ after.head? = some ' ' →
      M (before ++ "make".toList) after) ∧
    (inLongerWord before after → M (before ++ "make".toList) after = false)

def OnlyMakeWords (anc : List Node) (whole s : Text) : Prop :=
  ∃ M, MakeWords s M ∧ render (outputpkgdest anc whole s) = weave (pkgdestPoint M) s

theorem differByLast_pkgdestPoint (M M' : Text → Text → Bool) :
    DifferByLast (pkgdestPoint M) (pkgdestPoint M') := by
  intro u v
  have hend : makeJ1Dest.getLast? = some 'T' := by decide
  have hne : makeJ1Dest ≠ [] := by decide
  by_cases hmake : "make".toList <:+ u
  · have hu : u.getLast? = some 'e' := by
      obtain ⟨u', rfl⟩ := hmake
      rw [make_word, List.getLast?_append_of_ne_nil _ (by decide)]
      rfl
    have hdiff : makeJ1Dest.getLast? ≠ u.getLast? := by
      rw [hend, hu]
      decide
    unfold pkgdestPoint
    cases hM : M u v with
    | false =>
      cases hM' : M' u v with
      | false => exact .inl (by rw [makePoint_neg hM, makePoint_neg hM'])
      | true =>
        exact .inr ⟨makeJ1Dest, _, hne, hdiff, .inr
          ⟨rfl, by rw [makePoint_pos hmake hM', makePoint_neg hM]; rfl⟩⟩
    | true =>
      cases hM' : M' u v with
      | false =>
        exact .inr ⟨makeJ1Dest, _, hne, hdiff, .inl
          ⟨by rw [makePoint_pos hmake hM], by rw [makePoint_neg hM']; rfl⟩⟩
      | true => exact .inl (by rw [makePoint_pos hmake hM, makePoint_pos hmake hM'])
  · unfold pkgdestPoint
    rw [makePoint_of_not_suffix hmake, makePoint_of_not_suffix hmake]
    exact .inl rfl

theorem no_make_ahead {anc : List Node} (hno : hasAncestor anc "sect1" specialSections = false)
    {whole s : Text} (h : OnlyMakeWords anc whole s) {before after : Text}
    (hs : s = before ++ ("make".toList ++ after)) (hlonger : inLongerWord before after) :
    contains ("make".toList ++ after) "make ".toList = false := by
  obtain ⟨M, hM, heq⟩ := h
  rw [render_outputpkgdest hno] at heq
  have hpoint := ins_eq_of_weave_eq (differByLast_pkgdestPoint makeAhead M) heq
    (u := before ++ "make".toList) (v := after) (by rw [hs, List.append_assoc])
  have hsuffix : "make".toList <:+ before ++ "make".toList := List.suffix_append _ _
  unfold pkgdestPoint at hpoint
  rw [List.append_cancel_right_eq, makePoint_neg ((hM before after hs).2 hlonger)] at hpoint
  rw [Bool.eq_false_iff]
  intro hahead
  rw [makePoint_pos hsuffix hahead] at hpoint
  exact absurd hpoint (by decide)

/-- For every text outside the special sections, the template inserts after the words
`make` and after no longer word, exactly when no `make ` comes after a `make` of a longer
word or is one. -/
theorem only_make_words_iff {anc : List Node}
    (hno : hasAncestor anc "sect1" specialSections = false) (whole s : Text) :
    OnlyMakeWords anc whole s ↔
      ∀ before after, s = before ++ ("make".toList ++ after) → inLongerWord before after →
        contains ("make".toList ++ after) "make ".toList = false := by
  constructor
  · intro h before after hs hlonger
    exact no_make_ahead hno h hs hlonger
  · intro h
    refine ⟨makeAhead, fun before after hs => ⟨fun ⟨_, hspace⟩ => ?_, h before after hs⟩,
      render_outputpkgdest hno whole s⟩
    obtain ⟨t, rfl⟩ := List.head?_eq_some_iff.mp hspace
    exact contains_make_space.mpr ⟨[], t, rfl⟩

theorem only_make_words_bash :
    OnlyMakeWords (installUserinput "").1 [] "make install\nmakeinfo".toList := by
  refine (only_make_words_iff (by decide) [] "make install\nmakeinfo".toList).mpr
    fun before after hs hlonger => ?_
  have key : ∀ n < 21, inLongerWord ("make install\nmakeinfo".toList.take n)
      ("make install\nmakeinfo".toList.drop (n + 4)) →
        "make".toList.isPrefixOf ("make install\nmakeinfo".toList.drop n) →
          contains ("make".toList ++ "make install\nmakeinfo".toList.drop (n + 4))
            "make ".toList = false := by decide +kernel
  have hlen : "make install\nmakeinfo".toList.length = 21 := by decide
  have hword : "make".toList.length = 4 := by decide
  have hlt : before.length < 21 := by
    have hsum := congrArg List.length hs
    rw [List.length_append, List.length_append] at hsum
    omega
  have hat := key before.length hlt
  have hafter : (before ++ ("make".toList ++ after)).drop (before.length + 4) = after := by
    rw [← hword, List.drop_length_add_append, List.drop_left]
  rw [hs, List.take_left, List.drop_left, hafter] at hat
  exact hat hlonger (List.isPrefixOf_iff_prefix.mpr (List.prefix_append _ _))

/-- The `make` of `makeinfo` gets the insertion that the next command needs. -/
theorem not_only_make_words_makeinfo :
    hasAncestor (installUserinput "").1 "sect1" specialSections = false ∧
      ¬ OnlyMakeWords (installUserinput "").1 [] "makeinfo doc\nmake install".toList := by
  have hno : hasAncestor (installUserinput "").1 "sect1" specialSections = false := by decide
  refine ⟨hno, fun h => ?_⟩
  have hs : "makeinfo doc\nmake install".toList =
      [] ++ ("make".toList ++ "info doc\nmake install".toList) := by decide +kernel
  exact absurd (no_make_ahead hno h hs (by decide)) (by decide +kernel)

end HaoosLfs.Book
