import HaoosLfs.Book.PkgDest
import HaoosLfs.Lib.Fuel
import HaoosLfs.Lib.Insertion

/-!
# What `outputpkgdest` inserts (`lfs.xsl:907-1022`)

Outside the special sections the template only inserts into its text. The places are
those before a `ninja install`, before an absolute path, and after each `make` that is
followed by a `make ` or is one.
-/

namespace HaoosLfs.Book
open Text

/-! ### The recursion -/

def pkgdestBody (anc : List Node) (whole : Text) (call : Text → List Out) (s : Text) : List Out :=
  if contains s "make ".toList then pkgdestMake call anc whole s
  else if contains s "ninja install".toList then pkgdestNinja call s
  else pkgdestPath call s

theorem split_calls {s p : Text} {call call' : Text → List Out}
    (h : ∀ t, t.length < s.length → call t = call' t) (hp : p ≠ []) (hc : contains s p)
    (hstart : ¬ p.isPrefixOf s) :
    call (substringBefore s p) ++ call (substringAfter s (substringBefore s p)) =
      call' (substringBefore s p) ++ call' (substringAfter s (substringBefore s p)) := by
  have hlen := length_substrings hc
  have hpos := List.length_pos_iff.mpr hp
  have hbefore := List.length_pos_iff.mpr (substringBefore_ne_nil hc hstart)
  rw [substringAfter_before hc, h _ (by omega), h _ (by rw [List.length_append]; omega)]

theorem contains_of_prefix {s p q : Text} (h : (p ++ q).isPrefixOf s) : contains s p := by
  obtain ⟨t, rfl⟩ := List.isPrefixOf_iff_prefix.mp h
  exact contains_iff.mpr ⟨[], q ++ t, by simp only [List.nil_append, List.append_assoc]⟩

theorem contains_make_of_space {s : Text} (h : contains s "make ".toList) :
    contains s "make".toList := by
  obtain ⟨x, y, rfl⟩ := contains_make_space.mp h
  exact contains_iff.mpr ⟨x, ' ' :: y, rfl⟩

section
variable {call call' : Text → List Out} {s : Text}

theorem pkgdestMake_congr (anc : List Node) (whole : Text)
    (h : ∀ t, t.length < s.length → call t = call' t) (hmake : contains s "make ".toList) :
    pkgdestMake call anc whole s = pkgdestMake call' anc whole s := by
  have hc := contains_make_of_space hmake
  unfold pkgdestMake
  by_cases hstart : "make".toList.isPrefixOf s
  · rw [hstart, Bool.not_true, if_neg Bool.false_ne_true, if_neg Bool.false_ne_true,
      h _ (length_substringAfter (by decide) hc)]
  · rw [Bool.not_eq_true] at hstart
    rw [hstart, Bool.not_false, if_pos rfl, if_pos rfl]
    exact split_calls h (by decide) hc (Bool.eq_false_iff.mp hstart)

theorem pkgdestNinja_congr (h : ∀ t, t.length < s.length → call t = call' t)
    (hninja : contains s "ninja install".toList) : pkgdestNinja call s = pkgdestNinja call' s := by
  unfold pkgdestNinja
  by_cases hstart : "ninja install".toList.isPrefixOf s
  · have hc : contains s "ninja".toList := contains_of_prefix (q := " install".toList) hstart
    rw [hstart, Bool.not_true, if_neg Bool.false_ne_true, if_neg Bool.false_ne_true,
      h _ (length_substringAfter (by decide) hc)]
  · rw [Bool.not_eq_true] at hstart
    rw [hstart, Bool.not_false, if_pos rfl, if_pos rfl]
    exact split_calls h (by decide) hninja (Bool.eq_false_iff.mp hstart)

theorem pkgdestPath_congr (h : ∀ t, t.length < s.length → call t = call' t) :
    pkgdestPath call s = pkgdestPath call' s := by
  unfold pkgdestPath
  split_ifs with hredirect hpath
  · rw [Bool.and_eq_true] at hredirect
    rw [h _ (length_substringAfter (by decide) hredirect.1)]
  · rw [h _ (length_substringAfter (by decide) hpath)]
  · rfl

end

theorem callsShorter_pkgdestBody (anc : List Node) (whole : Text) :
    CallsShorter (pkgdestBody anc whole) := by
  intro call call' s h
  unfold pkgdestBody
  split_ifs with hmake hninja
  · exact pkgdestMake_congr anc whole h hmake
  · exact pkgdestNinja_congr h hninja
  · exact pkgdestPath_congr h

theorem outputpkgdest_eq_body (anc : List Node) (whole s : Text) :
    outputpkgdest anc whole s = pkgdestBody anc whole (outputpkgdest anc whole) s :=
  fuel_eq_body (callsShorter_pkgdestBody anc whole) (fun _ => rfl) (fun _ _ => rfl) s

theorem outputpkgdestFuel_eq (anc : List Node) (whole : Text) {n : ℕ} {s : Text}
    (h : s.length ≤ n) : outputpkgdestFuel anc whole n s = outputpkgdest anc whole s :=
  fuel_eq_fuel (callsShorter_pkgdestBody anc whole) (fun _ => rfl) (fun _ _ => rfl) h
    (Nat.le_refl _)

/-! ### The places -/

def makeJ1Dest : Text := " -j1 DESTDIR=$PKG_DEST".toList

/-- After the occurrences of `make` that `M` picks. -/
def makePoint (M : Text → Text → Bool) (before after : Text) : Text :=
  if "make".toList <:+ before ∧ M before after then makeJ1Dest else []

/-- Before a `ninja install`. -/
def ninjaPoint (after : Text) : Text :=
  if "ninja install".toList <+: after then destdir ++ [' '] else []

/-- Before a slash after a space or a redirection. -/
def pathPoint (before after : Text) : Text :=
  if after.head? = some '/' ∧ (before.getLast? = some ' ' ∨ before.getLast? = some '>') then pkgDest
  else []

/-- What is inserted between `before` and `after`. -/
def pkgdestPoint (M : Text → Text → Bool) (before after : Text) : Text :=
  makePoint M before after ++ (ninjaPoint after ++ pathPoint before after)

/-- The occurrence of `make` before this place is followed by a space, or one after it is. -/
def makeAhead (_ after : Text) : Bool := contains ("make".toList ++ after) "make ".toList

theorem makePoint_of_not_suffix {M : Text → Text → Bool} {before : Text}
    (h : ¬ "make".toList <:+ before) (after : Text) : makePoint M before after = [] :=
  if_neg fun hm => h hm.1

theorem makePoint_pos {M : Text → Text → Bool} {before after : Text}
    (h : "make".toList <:+ before) (hM : M before after) : makePoint M before after = makeJ1Dest :=
  if_pos ⟨h, hM⟩

theorem makePoint_neg {M : Text → Text → Bool} {before after : Text}
    (hM : M before after = false) : makePoint M before after = [] :=
  if_neg fun hm => Bool.eq_false_iff.mp hM hm.2

theorem makePoint_congr {before before' : Text}
    (h : "make".toList <:+ before ↔ "make".toList <:+ before') (after : Text) :
    makePoint makeAhead before after = makePoint makeAhead before' after :=
  if_congr (and_congr_left fun _ => h) rfl rfl

theorem pathPoint_append {u : Text} (h : u ≠ []) (x v : Text) :
    pathPoint (x ++ u) v = pathPoint u v := by
  unfold pathPoint
  rw [List.getLast?_append_of_ne_nil _ h]

theorem pathPoint_nil (before : Text) : pathPoint before [] = [] :=
  if_neg fun hp => by cases hp.1

theorem pathPoint_cons {c : Char} (hc : c ≠ '/') (before t : Text) :
    pathPoint before (c :: t) = [] :=
  if_neg fun hp => hc (Option.some.inj hp.1)

theorem prefix_append_cons {p : Text} {c : Char} (hc : c ∉ p) (v t : Text) :
    p <+: v ++ c :: t ↔ p <+: v := by
  constructor
  · intro h
    rcases Nat.le_total p.length v.length with hle | hle
    · exact List.prefix_of_prefix_length_le h (List.prefix_append v _) hle
    · obtain ⟨q, rfl⟩ := List.prefix_of_prefix_length_le (List.prefix_append v (c :: t)) h hle
      rw [List.prefix_append_right_inj] at h
      cases q with
      | nil => rw [List.append_nil]
      | cons d q =>
        obtain ⟨rfl, -⟩ := List.cons_prefix_cons.mp h
        exact absurd (by simp) hc
  · intro h
    exact h.trans (List.prefix_append v _)

theorem ninjaPoint_append_cons {c : Char} (hc : c ∉ "ninja install".toList) (v t : Text) :
    ninjaPoint (v ++ c :: t) = ninjaPoint v :=
  if_congr (prefix_append_cons hc v t) rfl rfl

theorem ninjaPoint_of_head {c : Char} (hc : c ≠ 'n') (t : Text) : ninjaPoint (c :: t) = [] := by
  have hword : "ninja install".toList = 'n' :: "inja install".toList := by decide
  refine if_neg fun h => ?_
  rw [hword] at h
  exact hc (List.cons_prefix_cons.mp h).1.symm

theorem first_le {p s a b u v : Text} (h : splitFirst p s = some (a, b))
    (hs : s = u ++ (p ++ v)) : a.length ≤ u.length :=
  (splitFirst_eq_some_iff.mp h).2 u v hs

/-! ### One call -/

theorem make_word : "make".toList = ['m', 'a', 'k', 'e'] := by decide

theorem weave_make_split {s a b : Text} (h : splitFirst "make".toList s = some (a, b)) :
    weave (pkgdestPoint makeAhead) s =
      weave (pkgdestPoint makeAhead) a ++ weave (pkgdestPoint makeAhead) ("make".toList ++ b) := by
  have hs := splitFirst_eq_some h
  have hlen : "make".toList.length = 4 := by decide
  have hm : "make".toList ++ b = 'm' :: ("ake".toList ++ b) := by rw [make_word]; rfl
  have hnot : ∀ u v, a = u ++ v → ¬ "make".toList <:+ u := by
    rintro u v rfl ⟨u', rfl⟩
    have hle := first_le h (u := u') (v := v ++ ("make".toList ++ b))
      (by rw [hs]; simp only [List.append_assoc])
    simp only [List.length_append] at hle
    omega
  rw [hs]
  refine weave_append_of_apart (fun u v huv hv => ?_) ?_ fun u v huv hu => ?_
  · have hhead : (v ++ ("make".toList ++ b)).head? = v.head? := List.head?_append_of_ne_nil _ hv
    unfold pkgdestPoint pathPoint
    rw [makePoint_of_not_suffix (hnot u v huv), makePoint_of_not_suffix (hnot u v huv), hhead, hm,
      ninjaPoint_append_cons (by decide)]
  · have hnil : ¬ "make".toList <:+ [] := by decide
    unfold pkgdestPoint
    rw [makePoint_of_not_suffix (hnot a [] (List.append_nil a).symm),
      makePoint_of_not_suffix (hnot a [] (List.append_nil a).symm),
      makePoint_of_not_suffix hnil, hm,
      ninjaPoint_of_head (by decide), pathPoint_cons (by decide), pathPoint_cons (by decide),
      pathPoint_nil]
    rfl
  · have hsuffix : "make".toList <:+ a ++ u ↔ "make".toList <:+ u := by
      refine ⟨fun hmake => ?_, fun hmake => hmake.trans (List.suffix_append a u)⟩
      obtain ⟨u', hu'⟩ := hmake
      have hle := first_le h (u := u') (v := v)
        (by rw [hs, huv, ← List.append_assoc, ← hu', List.append_assoc])
      have hlen' := congrArg List.length hu'
      rw [List.length_append, List.length_append] at hlen'
      exact List.suffix_of_suffix_length_le ⟨u', hu'⟩ (List.suffix_append a u) (by omega)
    unfold pkgdestPoint
    rw [makePoint_congr hsuffix, pathPoint_append hu]

theorem weaveTo_make {M : Text → Text → Bool} (after : Text) :
    weaveTo (pkgdestPoint M) [] "make".toList after = "make".toList := by
  have hplain : ∀ c ∈ "make".toList, c ≠ 'n' ∧ c ≠ '/' := by
    rw [make_word]
    simp
  refine weaveTo_eq_self fun u v huv hv => ?_
  obtain ⟨c, v, rfl⟩ := List.exists_cons_of_ne_nil hv
  have hnot : ¬ "make".toList <:+ u := by
    intro hmake
    have hlen := congrArg List.length huv
    have hle := hmake.length_le
    rw [List.length_append, List.length_cons] at hlen
    omega
  have hmem : c ∈ u ++ c :: v := List.mem_append_right u List.mem_cons_self
  rw [← huv] at hmem
  obtain ⟨hn, hslash⟩ := hplain c hmem
  unfold pkgdestPoint
  rw [List.nil_append, makePoint_of_not_suffix hnot, List.cons_append, ninjaPoint_of_head hn,
    pathPoint_cons hslash]
  rfl

/-- A suffix that is the word `make` does not reach back into a `make` before it. -/
theorem make_suffix_append {u : Text} (hu : u ≠ []) :
    "make".toList <:+ "make".toList ++ u ↔ "make".toList <:+ u := by
  refine ⟨fun ⟨x, hx⟩ => ?_, fun h => h.trans (List.suffix_append _ u)⟩
  have hx' : x ≠ [] := by
    rintro rfl
    have hlen := congrArg List.length hx
    have hpos := List.length_pos_iff.mpr hu
    rw [List.nil_append, List.length_append] at hlen
    omega
  obtain ⟨y, hy⟩ := make_no_overlap (a := u) (b := []) (by rw [List.append_nil]; exact hx.symm) hx'
  rw [List.append_nil] at hy
  exact ⟨y, hy.symm⟩

theorem weave_make_start {b : Text} (h : contains ("make".toList ++ b) "make ".toList) :
    weave (pkgdestPoint makeAhead) ("make".toList ++ b) =
      "make".toList ++ (makeJ1Dest ++ weave (pkgdestPoint makeAhead) b) := by
  have hnil : ¬ "make".toList <:+ [] := by decide
  have hend : ∀ after, pathPoint "make".toList after = [] := fun after => if_neg (by
    rw [make_word]
    simp)
  have hmid : pkgdestPoint makeAhead "make".toList b =
      makeJ1Dest ++ pkgdestPoint makeAhead [] b := by
    have hhere : "make".toList <:+ "make".toList ∧ makeAhead "make".toList b :=
      ⟨List.suffix_refl _, h⟩
    have hstart : pathPoint [] b = [] := if_neg (by simp)
    unfold pkgdestPoint
    rw [makePoint_of_not_suffix hnil, hend, hstart, makePoint, if_pos hhere, List.nil_append]
  rw [weave_append hmid fun u v _ hu => ?_, weaveTo_make]
  unfold pkgdestPoint
  rw [makePoint_congr (make_suffix_append hu), pathPoint_append hu]

section
variable {s : Text} (hno : contains s "make ".toList = false)
include hno

theorem makePoint_of_no_make {u v : Text} (hs : s = u ++ v) : makePoint makeAhead u v = [] := by
  refine if_neg fun ⟨⟨u', hu'⟩, hahead⟩ => ?_
  have hc := contains_append hahead u' []
  rw [List.append_nil, ← List.append_assoc, hu', ← hs, hno] at hc
  cases hc

theorem no_make_part (x y z : Text) (hs : s = x ++ (y ++ z)) :
    contains y "make ".toList = false := by
  rw [Bool.eq_false_iff]
  intro hc
  have hc' := contains_append hc x z
  rw [← hs, hno] at hc'
  cases hc'

theorem weave_ninja_split {a b : Text} (h : splitFirst "ninja install".toList s = some (a, b)) :
    weave (pkgdestPoint makeAhead) s =
      weave (pkgdestPoint makeAhead) a ++
        weave (pkgdestPoint makeAhead) ("ninja install".toList ++ b) := by
  have hs := splitFirst_eq_some h
  have hcons : "ninja install".toList ++ b = 'n' :: ("inja install".toList ++ b) := by
    have hword : "ninja install".toList = 'n' :: "inja install".toList := by decide
    rw [hword]
    rfl
  have hleft := no_make_part hno [] a _ (by rw [List.nil_append]; exact hs)
  have hright := no_make_part hno a _ [] (by rw [List.append_nil]; exact hs)
  rw [hs]
  refine weave_append_of_apart (fun u v huv hv => ?_) ?_ fun u v huv hu => ?_
  · have hhead : (v ++ ("ninja install".toList ++ b)).head? = v.head? :=
      List.head?_append_of_ne_nil _ hv
    have hninja : ninjaPoint (v ++ ("ninja install".toList ++ b)) = [] := if_neg fun hp => by
      obtain ⟨t, ht⟩ := hp
      have hle := first_le h (u := u) (v := t) (by rw [ht, hs, huv, List.append_assoc])
      have hpos := List.length_pos_iff.mpr hv
      rw [huv, List.length_append] at hle
      omega
    have hninja' : ninjaPoint v = [] := if_neg fun hp => by
      obtain ⟨t, ht⟩ := hp
      have hle := first_le h (u := u) (v := t ++ ("ninja install".toList ++ b))
        (by rw [hs, huv, ← ht]; simp only [List.append_assoc])
      have hpos := List.length_pos_iff.mpr hv
      rw [huv, List.length_append] at hle
      omega
    unfold pkgdestPoint pathPoint
    rw [makePoint_of_no_make hno (by rw [hs, huv, List.append_assoc]),
      makePoint_of_no_make hleft huv, hninja, hninja', hhead]
  · have hnil : ninjaPoint [] = [] := if_neg (by decide)
    unfold pkgdestPoint
    rw [makePoint_of_no_make hno hs, makePoint_of_no_make hleft (List.append_nil a).symm,
      makePoint_of_no_make hright (List.nil_append _).symm, hcons,
      pathPoint_cons (by decide), pathPoint_cons (by decide),
      pathPoint_nil, hnil]
    rfl
  · unfold pkgdestPoint
    rw [makePoint_of_no_make hno (by rw [hs, huv, List.append_assoc]),
      makePoint_of_no_make hright huv, pathPoint_append hu]

theorem pkgdestPoint_plain {u t : Text} {c : Char} (hs : s = u ++ c :: t) (hc : c ≠ '/')
    (hninja : ninjaPoint (c :: t) = []) : pkgdestPoint makeAhead u (c :: t) = [] := by
  unfold pkgdestPoint
  rw [makePoint_of_no_make hno hs, hninja, pathPoint_cons hc]
  rfl

theorem weaveTo_ninja {t : Text} (hs : s = "ninja".toList ++ (" install".toList ++ t)) :
    weaveTo (pkgdestPoint makeAhead) [] "ninja".toList (" install".toList ++ t) =
      destdir ++ ' ' :: "ninja".toList := by
  have hword : "ninja".toList = ['n', 'i', 'n', 'j', 'a'] := by decide
  have hsplit : "ninja install".toList = "ninja".toList ++ " install".toList := by decide
  have hfirst : pkgdestPoint makeAhead [] s = destdir ++ [' '] := by
    have hhere : "ninja install".toList <+: s := ⟨t, by rw [hs, hsplit, List.append_assoc]⟩
    have hpath : pathPoint [] s = [] := if_neg (by simp)
    unfold pkgdestPoint ninjaPoint
    rw [makePoint_of_no_make hno (List.nil_append s).symm, if_pos hhere, hpath]
    rfl
  have hmiddle : ninjaPoint ('n' :: 'j' :: 'a' :: (" install".toList ++ t)) = [] := by
    have hdown : "ninja install".toList = 'n' :: 'i' :: "nja install".toList := by decide
    refine if_neg fun h => ?_
    rw [hdown] at h
    exact absurd (List.cons_prefix_cons.mp (List.cons_prefix_cons.mp h).2).1 (by decide)
  generalize hrest : " install".toList ++ t = rest at hs hmiddle ⊢
  rw [hword] at hs ⊢
  rw [weaveTo, weaveTo, weaveTo, weaveTo, weaveTo, weaveTo]
  simp only [List.cons_append, List.nil_append] at hs ⊢
  rw [← hs, hfirst,
    pkgdestPoint_plain hno (u := ['n']) hs (by decide) (ninjaPoint_of_head (by decide) _),
    pkgdestPoint_plain hno (u := ['n', 'i']) hs (by decide) hmiddle,
    pkgdestPoint_plain hno (u := ['n', 'i', 'n']) hs (by decide) (ninjaPoint_of_head (by decide) _),
    pkgdestPoint_plain hno (u := ['n', 'i', 'n', 'j']) hs (by decide)
      (ninjaPoint_of_head (by decide) _)]
  simp only [List.nil_append, List.append_assoc, List.cons_append]

theorem weave_ninja_start {t : Text} (hs : s = "ninja".toList ++ (" install".toList ++ t)) :
    weave (pkgdestPoint makeAhead) s =
      (destdir ++ ' ' :: "ninja".toList) ++
        weave (pkgdestPoint makeAhead) (" install".toList ++ t) := by
  have hcons : " install".toList ++ t = ' ' :: ("install".toList ++ t) := by
    have hspace : " install".toList = ' ' :: "install".toList := by decide
    rw [hspace]
    rfl
  have hright := no_make_part hno "ninja".toList (" install".toList ++ t) []
    (by rw [List.append_nil]; exact hs)
  have hmid : pkgdestPoint makeAhead "ninja".toList (" install".toList ++ t) =
      [] ++ pkgdestPoint makeAhead [] (" install".toList ++ t) := by
    unfold pkgdestPoint
    rw [makePoint_of_no_make hno hs, makePoint_of_no_make hright (List.nil_append _).symm, hcons,
      pathPoint_cons (by decide), pathPoint_cons (by decide)]
    rfl
  have hleft := weaveTo_ninja hno hs
  rw [hs, weave_append hmid fun u v huv hu => ?_, hleft, List.nil_append]
  unfold pkgdestPoint
  rw [makePoint_of_no_make hno (by rw [hs, huv, List.append_assoc]),
    makePoint_of_no_make hright huv, pathPoint_append hu]

end

/-- Neither a `make ` nor a `ninja install`. -/
structure OnlyPaths (s : Text) : Prop where
  noMake : contains s "make ".toList = false
  noNinja : contains s "ninja install".toList = false

theorem OnlyPaths.part {s x y z : Text} (h : OnlyPaths s) (hs : s = x ++ (y ++ z)) :
    OnlyPaths y := by
  refine ⟨no_make_part h.noMake x y z hs, ?_⟩
  rw [Bool.eq_false_iff]
  intro hc
  have hc' := contains_append hc x z
  rw [← hs, h.noNinja] at hc'
  cases hc'

theorem OnlyPaths.point {s : Text} (h : OnlyPaths s) {u v : Text} (hs : s = u ++ v) :
    pkgdestPoint makeAhead u v = pathPoint u v := by
  have hpoint : ninjaPoint v = [] := if_neg fun ⟨t, ht⟩ => by
    have hc : contains s "ninja install".toList := contains_iff.mpr ⟨u, t, by rw [ht, hs]⟩
    rw [h.noNinja] at hc
    cases hc
  unfold pkgdestPoint
  rw [makePoint_of_no_make h.noMake hs, hpoint]
  rfl

theorem pathPoint_start (v : Text) : pathPoint [] v = [] := if_neg (by simp)

/-- Where an absolute path begins, at a slash after the character `d`. -/
def IsPathStart (d : Char) (v : Text) : Prop := v.head? = some '/' ∧ (d = ' ' ∨ d = '>')

theorem pathPoint_eq_nil {u v : Text} (h : ∀ u' d, u = u' ++ [d] → ¬ IsPathStart d v) :
    pathPoint u v = [] := by
  refine if_neg fun ⟨hhead, hlast⟩ => ?_
  rcases hlast with hlast | hlast
  · obtain ⟨u', hu'⟩ := List.getLast?_eq_some_iff.mp hlast
    exact h u' ' ' hu' ⟨hhead, .inl rfl⟩
  · obtain ⟨u', hu'⟩ := List.getLast?_eq_some_iff.mp hlast
    exact h u' '>' hu' ⟨hhead, .inr rfl⟩

theorem weave_slash {b : Text} (h : OnlyPaths ('/' :: b)) :
    weave (pkgdestPoint makeAhead) ('/' :: b) = '/' :: weave (pkgdestPoint makeAhead) b := by
  have hb : OnlyPaths b := h.part (x := ['/']) (z := []) (by rw [List.append_nil]; rfl)
  have hslash : pathPoint ['/'] b = [] := if_neg (by simp)
  have hmid : pkgdestPoint makeAhead ['/'] b = [] ++ pkgdestPoint makeAhead [] b := by
    rw [h.point (u := ['/']) rfl, hb.point (List.nil_append b).symm, hslash, pathPoint_start]
    rfl
  have hleft : weaveTo (pkgdestPoint makeAhead) [] ['/'] b = ['/'] := by
    have hstart := h.point (u := []) rfl
    rw [pathPoint_start] at hstart
    rw [weaveTo, weaveTo, List.nil_append, hstart]
    rfl
  have happend := weave_append (x := ['/']) hmid fun u v huv hu => by
    rw [h.point (u := ['/'] ++ u) (by rw [huv]; rfl), hb.point huv, pathPoint_append hu]
  rw [List.singleton_append] at happend
  rw [happend, hleft]
  rfl

theorem weave_path {s a b : Text} {c : Char} (h : OnlyPaths s) (hs : s = (a ++ [c]) ++ '/' :: b)
    (hc : c = ' ' ∨ c = '>')
    (hfirst : ∀ u d v, a ++ [c] = (u ++ [d]) ++ v → ¬ IsPathStart d v) :
    weave (pkgdestPoint makeAhead) s =
      (a ++ [c]) ++ (pkgDest ++ '/' :: weave (pkgdestPoint makeAhead) b) := by
  have hright : OnlyPaths ('/' :: b) := h.part (z := []) (by rw [List.append_nil]; exact hs)
  have hhere : pathPoint (a ++ [c]) ('/' :: b) = pkgDest := by
    refine if_pos ⟨rfl, ?_⟩
    rw [List.getLast?_concat]
    rcases hc with rfl | rfl
    · exact .inl rfl
    · exact .inr rfl
  have hmid : pkgdestPoint makeAhead (a ++ [c]) ('/' :: b) =
      pkgDest ++ pkgdestPoint makeAhead [] ('/' :: b) := by
    rw [h.point hs, hhere, hright.point (List.nil_append _).symm, pathPoint_start, List.append_nil]
  have hleft : weaveTo (pkgdestPoint makeAhead) [] (a ++ [c]) ('/' :: b) = a ++ [c] := by
    refine weaveTo_eq_self fun u v huv hv => ?_
    rw [List.nil_append, h.point (by rw [hs, huv, List.append_assoc])]
    refine pathPoint_eq_nil fun u' d hu' hstart => ?_
    rw [hu'] at huv
    refine hfirst u' d v huv ⟨?_, hstart.2⟩
    rw [← List.head?_append_of_ne_nil v hv]
    exact hstart.1
  rw [hs, weave_append hmid fun u v huv hu => ?_, hleft, weave_slash hright]
  rw [h.point (by rw [hs, huv]; simp only [List.append_assoc]), hright.point huv,
    pathPoint_append hu]

theorem weave_no_path {s : Text} (h : OnlyPaths s)
    (hno : ∀ u d v, s = (u ++ [d]) ++ v → ¬ IsPathStart d v) :
    weave (pkgdestPoint makeAhead) s = s := by
  refine weave_eq_self fun u v huv => ?_
  rw [h.point huv]
  exact pathPoint_eq_nil fun u' d hu' => hno u' d v (by rw [huv, hu'])

/-! ### All calls -/

theorem render_append (ps qs : List Out) : render (ps ++ qs) = render ps ++ render qs :=
  List.flatMap_append

theorem render_split {call : Text → List Out} {s p : Text} (hp : p ≠ []) (hc : contains s p)
    (hstart : ¬ p.isPrefixOf s)
    (hcall : ∀ t, t.length < s.length → render (call t) = weave (pkgdestPoint makeAhead) t) :
    render (call (substringBefore s p) ++ call (substringAfter s (substringBefore s p))) =
      weave (pkgdestPoint makeAhead) (substringBefore s p) ++
        weave (pkgdestPoint makeAhead) (p ++ substringAfter s p) := by
  have hlen := length_substrings hc
  have hpos := List.length_pos_iff.mpr hp
  have hbefore := List.length_pos_iff.mpr (substringBefore_ne_nil hc hstart)
  rw [render_append, substringAfter_before hc, hcall _ (by omega),
    hcall _ (by rw [List.length_append]; omega)]

section
variable {call : Text → List Out} {s : Text}
  (hcall : ∀ t, t.length < s.length → render (call t) = weave (pkgdestPoint makeAhead) t)
include hcall

theorem render_pkgdestMake {anc : List Node} {whole : Text}
    (hspecial : specialMake anc whole s = none) (hmake : contains s "make ".toList) :
    render (pkgdestMake call anc whole s) = weave (pkgdestPoint makeAhead) s := by
  have hc := contains_make_of_space hmake
  unfold pkgdestMake
  by_cases hstart : "make".toList.isPrefixOf s
  · obtain ⟨t, rfl⟩ := List.isPrefixOf_iff_prefix.mp hstart
    have hword : render [.text "make -j1".toList, .inserted (' ' :: destdir)] =
        "make".toList ++ makeJ1Dest := by decide
    have hlen : t.length < ("make".toList ++ t).length := by
      rw [List.length_append, make_word]
      simp
    rw [hstart, Bool.not_true, if_neg Bool.false_ne_true, hspecial]
    dsimp only
    rw [render_append, hword, substringAfter_self_append, hcall t hlen, weave_make_start hmake,
      List.append_assoc]
  · rw [Bool.eq_false_iff.mpr hstart, Bool.not_false, if_pos rfl,
      render_split (by decide) hc hstart hcall]
    obtain ⟨b, a, hfirst⟩ := exists_first_make hmake
    obtain ⟨hb, ha⟩ := substring_of_splitFirst hfirst
    rw [hb, ha]
    exact (weave_make_split hfirst).symm

theorem render_pkgdestNinja (hno : contains s "make ".toList = false)
    (hninja : contains s "ninja install".toList) :
    render (pkgdestNinja call s) = weave (pkgdestPoint makeAhead) s := by
  unfold pkgdestNinja
  by_cases hstart : "ninja install".toList.isPrefixOf s
  · have hsplit : "ninja install".toList = "ninja".toList ++ " install".toList := by decide
    have hword : "ninja".toList.length = 5 := by decide
    have hpieces : render [.inserted (destdir ++ [' ']), .text "ninja".toList] =
        destdir ++ ' ' :: "ninja".toList := by decide
    obtain ⟨t, ht⟩ := List.isPrefixOf_iff_prefix.mp hstart
    rw [hsplit, List.append_assoc] at ht
    have hlen := congrArg List.length ht
    rw [List.length_append] at hlen
    rw [hstart, Bool.not_true, if_neg Bool.false_ne_true, render_append, hpieces,
      weave_ninja_start hno ht.symm, ← hcall _ (by omega), ← ht, substringAfter_self_append]
  · rw [Bool.eq_false_iff.mpr hstart, Bool.not_false, if_pos rfl,
      render_split (by decide) hninja hstart hcall]
    obtain ⟨⟨a, b⟩, hfirst⟩ := Option.isSome_iff_exists.mp hninja
    obtain ⟨ha, hb⟩ := substring_of_splitFirst hfirst
    rw [ha, hb]
    exact (weave_ninja_split hno hfirst).symm

end

theorem render_dest (a : Text) (c : Char) (ps : List Out) :
    render ([.text a, .text [c], .inserted pkgDest, .text ['/']] ++ ps) =
      (a ++ [c]) ++ (pkgDest ++ '/' :: render ps) := by
  rw [render_append]
  simp [render, Out.render]

theorem blank_slash : " /".toList = [' ', '/'] := by decide
theorem redirect_slash : ">/".toList = ['>', '/'] := by decide

theorem contains_of_concat {a p : Text} {c : Char} (hne : p ≠ []) (hlast : p.getLast? ≠ some c)
    (h : contains (a ++ [c]) p) : contains a p := by
  obtain ⟨u, t, hut⟩ := contains_iff.mp h
  rcases List.eq_nil_or_concat t with rfl | ⟨t', e, rfl⟩
  · have hend := congrArg List.getLast? hut
    rw [List.append_nil, List.getLast?_concat, List.getLast?_append_of_ne_nil _ hne] at hend
    exact absurd hend.symm hlast
  · rw [List.concat_eq_append, ← List.append_assoc, ← List.append_assoc] at hut
    obtain ⟨rfl, -⟩ := List.append_inj' hut rfl
    exact contains_iff.mpr ⟨u, t', List.append_assoc _ _ _⟩

theorem IsPathStart.split {s u v : Text} {d : Char} (h : IsPathStart d v)
    (hs : s = (u ++ [d]) ++ v) :
    (∃ t, s = u ++ (" /".toList ++ t)) ∨ ∃ t, s = u ++ (">/".toList ++ t) := by
  obtain ⟨hhead, hd⟩ := h
  obtain ⟨v', rfl⟩ := List.head?_eq_some_iff.mp hhead
  rw [List.append_assoc, List.singleton_append] at hs
  rcases hd with rfl | rfl
  · exact .inl ⟨v', by rw [blank_slash]; exact hs⟩
  · exact .inr ⟨v', by rw [redirect_slash]; exact hs⟩

theorem IsPathStart.length_lt {a u v : Text} {c d : Char} (h : IsPathStart d v)
    (hs : a ++ [c] = (u ++ [d]) ++ v) : u.length < a.length := by
  obtain ⟨v', rfl⟩ := List.head?_eq_some_iff.mp h.1
  have hlen := congrArg List.length hs
  simp only [List.length_append, List.length_cons, List.length_nil] at hlen
  omega

section
variable {s a b : Text} (h : OnlyPaths s)
include h

theorem weave_redirect (hsplit : splitFirst ">/".toList s = some (a, b))
    (hno : contains a " /".toList = false) :
    weave (pkgdestPoint makeAhead) s =
      (a ++ ['>']) ++ (pkgDest ++ '/' :: weave (pkgdestPoint makeAhead) b) := by
  have hs : s = (a ++ ['>']) ++ '/' :: b := by
    rw [splitFirst_eq_some hsplit, redirect_slash]
    simp only [List.append_assoc, List.cons_append, List.nil_append]
  refine weave_path h hs (.inr rfl) fun u d v huv hstart => ?_
  have hlen := hstart.length_lt huv
  rcases hstart.split huv with ⟨t, ht⟩ | ⟨t, ht⟩
  · have hc := contains_of_concat (by decide) (by decide) (contains_iff.mpr ⟨u, t, ht⟩)
    rw [hno] at hc
    cases hc
  · have hle := first_le hsplit (u := u) (v := t ++ '/' :: b)
      (by rw [hs, ht]; simp only [List.append_assoc])
    omega

theorem weave_argument (hsplit : splitFirst " /".toList s = some (a, b))
    (hno : ¬ (contains s ">/".toList && !contains (substringBefore s ">/".toList) " /".toList)) :
    weave (pkgdestPoint makeAhead) s =
      (a ++ [' ']) ++ (pkgDest ++ '/' :: weave (pkgdestPoint makeAhead) b) := by
  have hs : s = (a ++ [' ']) ++ '/' :: b := by
    rw [splitFirst_eq_some hsplit, blank_slash]
    simp only [List.append_assoc, List.cons_append, List.nil_append]
  refine weave_path h hs (.inl rfl) fun u d v huv hstart => ?_
  have hlen := hstart.length_lt huv
  rcases hstart.split huv with ⟨t, ht⟩ | ⟨t, ht⟩
  · have hle := first_le hsplit (u := u) (v := t ++ '/' :: b)
      (by rw [hs, ht]; simp only [List.append_assoc])
    omega
  · have hut : s = u ++ (">/".toList ++ (t ++ '/' :: b)) := by
      rw [hs, ht]
      simp only [List.append_assoc]
    have hc : contains s ">/".toList := contains_iff.mpr ⟨u, _, hut⟩
    obtain ⟨⟨x, y⟩, hxy⟩ := Option.isSome_iff_exists.mp hc
    have hbefore := (substring_of_splitFirst hxy).1
    have hpath : contains x " /".toList := by
      rw [hc, Bool.true_and, hbefore, Bool.not_eq_true, Bool.not_eq_false'] at hno
      exact hno
    obtain ⟨x', x'', hx⟩ := contains_iff.mp hpath
    have hle := first_le hxy hut
    have hle' := first_le hsplit (u := x') (v := x'' ++ (">/".toList ++ y))
      (by rw [splitFirst_eq_some hxy, hx]; simp only [List.append_assoc])
    have hlen' := congrArg List.length hx
    rw [List.length_append] at hlen'
    omega

theorem weave_neither
    (hno : ¬ (contains s ">/".toList && !contains (substringBefore s ">/".toList) " /".toList))
    (hpath : ¬ contains s " /".toList) : weave (pkgdestPoint makeAhead) s = s := by
  refine weave_no_path h fun u d v huv hstart => ?_
  rcases hstart.split huv with ⟨t, ht⟩ | ⟨t, ht⟩
  · exact hpath (contains_iff.mpr ⟨u, t, ht⟩)
  · have hc : contains s ">/".toList := contains_iff.mpr ⟨u, t, ht⟩
    rw [hc, Bool.true_and, Bool.not_eq_true, Bool.not_eq_false'] at hno
    have hin := contains_append hno [] (">/".toList ++ substringAfter s ">/".toList)
    rw [List.nil_append, ← before_key_after hc] at hin
    exact hpath hin

theorem render_pkgdestPath {call : Text → List Out}
    (hcall : ∀ t, t.length < s.length → render (call t) = weave (pkgdestPoint makeAhead) t) :
    render (pkgdestPath call s) = weave (pkgdestPoint makeAhead) s := by
  unfold pkgdestPath
  split_ifs with hredirect hpath
  · have hredirect' := hredirect
    rw [Bool.and_eq_true] at hredirect'
    obtain ⟨⟨x, y⟩, hxy⟩ := Option.isSome_iff_exists.mp hredirect'.1
    obtain ⟨hx, hy⟩ := substring_of_splitFirst hxy
    have hlen := length_substringAfter (by decide) hredirect'.1
    have hno : contains x " /".toList = false := by
      rw [← hx]
      simpa using hredirect'.2
    rw [render_dest, hcall _ hlen, hx, hy]
    exact (weave_redirect h hxy hno).symm
  · obtain ⟨⟨x, y⟩, hxy⟩ := Option.isSome_iff_exists.mp hpath
    obtain ⟨hx, hy⟩ := substring_of_splitFirst hxy
    have hlen := length_substringAfter (by decide) hpath
    rw [render_dest, hcall _ hlen, hx, hy]
    exact (weave_argument h hxy hredirect).symm
  · rw [weave_neither h hredirect hpath]
    exact List.append_nil s

end

/-- Outside the special sections, the template writes its text with these insertions. -/
theorem render_outputpkgdest {anc : List Node}
    (hno : hasAncestor anc "sect1" specialSections = false) (whole s : Text) :
    render (outputpkgdest anc whole s) = weave (pkgdestPoint makeAhead) s := by
  induction hn : s.length using Nat.strong_induction_on generalizing s with
  | _ n ih =>
    have hcall : ∀ t, t.length < s.length →
        render (outputpkgdest anc whole t) = weave (pkgdestPoint makeAhead) t :=
      fun t ht => ih t.length (by omega) t rfl
    rw [outputpkgdest_eq_body]
    unfold pkgdestBody
    split_ifs with hmake hninja
    · exact render_pkgdestMake hcall (specialMake_eq_none hno whole s) hmake
    · exact render_pkgdestNinja hcall (Bool.eq_false_iff.mpr hmake) hninja
    · exact render_pkgdestPath ⟨Bool.eq_false_iff.mpr hmake, Bool.eq_false_iff.mpr hninja⟩ hcall

/-- For every text outside the special sections the template terminates, since each of its
calls is for a shorter text, and writes the text with insertions at these places, after each
`make` that is followed by a `make ` or is one. -/
theorem outputpkgdest_inserts {anc : List Node}
    (hno : hasAncestor anc "sect1" specialSections = false) (whole s : Text) :
    CallsShorter (pkgdestBody anc whole) ∧
      (∀ n, s.length ≤ n → outputpkgdestFuel anc whole n s =
        pkgdestBody anc whole (outputpkgdest anc whole) s) ∧
      render (outputpkgdest anc whole s) = weave (pkgdestPoint makeAhead) s := by
  refine ⟨callsShorter_pkgdestBody anc whole, fun n hn => ?_, render_outputpkgdest hno whole s⟩
  rw [outputpkgdestFuel_eq anc whole hn]
  exact outputpkgdest_eq_body anc whole s

theorem outputpkgdest_inserts_bash :
    CallsShorter (pkgdestBody (installUserinput "").1 []) ∧
      (∀ n, "make install\ncp -v doc /usr/share".toList.length ≤ n →
        outputpkgdestFuel (installUserinput "").1 [] n "make install\ncp -v doc /usr/share".toList =
          pkgdestBody (installUserinput "").1 [] (outputpkgdest (installUserinput "").1 [])
            "make install\ncp -v doc /usr/share".toList) ∧
      render (outputpkgdest (installUserinput "").1 []
        "make install\ncp -v doc /usr/share".toList) =
          weave (pkgdestPoint makeAhead) "make install\ncp -v doc /usr/share".toList :=
  outputpkgdest_inserts (by decide) [] "make install\ncp -v doc /usr/share".toList

end HaoosLfs.Book
