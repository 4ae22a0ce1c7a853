import HaoosLfs.Lib.Text

/-!
# Insertions

What is written between the elements of a list: `ins before after` stands at the place
with these elements before and after it. Where the insertions of two parts do not see
each other, the parts are written one after the other.
-/

namespace HaoosLfs

variable {α : Type*} (ins : List α → List α → List α)

/-- The part `s` of `before ++ (s ++ after)`, up to the place before `after`. -/
def weaveTo : List α → List α → List α → List α
  | _, [], _ => []
  | before, c :: s, after => ins before (c :: (s ++ after)) ++ c :: weaveTo (before ++ [c]) s after

def weave (s : List α) : List α := weaveTo ins [] s [] ++ ins s []

variable {ins}

theorem weaveTo_append (before x y after : List α) :
    weaveTo ins before (x ++ y) after =
      weaveTo ins before x (y ++ after) ++ weaveTo ins (before ++ x) y after := by
  induction x generalizing before with
  | nil => rw [List.append_nil]; rfl
  | cons c x ih =>
    rw [List.cons_append, weaveTo, ih, weaveTo]
    simp only [List.append_assoc, List.cons_append, List.nil_append]

theorem weaveTo_concat (before x after : List α) (c : α) :
    weaveTo ins before (x ++ [c]) after =
      weaveTo ins before x (c :: after) ++ (ins (before ++ x) (c :: after) ++ [c]) := by
  rw [weaveTo_append]
  rfl

theorem weaveTo_congr {ins' : List α → List α → List α} {before before' x after after' : List α}
    (h : ∀ u v, x = u ++ v → v ≠ [] →
      ins (before ++ u) (v ++ after) = ins' (before' ++ u) (v ++ after')) :
    weaveTo ins before x after = weaveTo ins' before' x after' := by
  induction x generalizing before before' with
  | nil => rfl
  | cons c x ih =>
    have hhead := h [] (c :: x) rfl (List.cons_ne_nil c x)
    rw [List.append_nil, List.append_nil] at hhead
    have htail : weaveTo ins (before ++ [c]) x after = weaveTo ins' (before' ++ [c]) x after' := by
      refine ih fun u v huv hv => ?_
      have hnext := h (c :: u) v (by rw [huv]; rfl) hv
      rwa [List.append_cons before, List.append_cons before'] at hnext
    rw [weaveTo, weaveTo, htail]
    exact congrArg (· ++ _) hhead

theorem weaveTo_nothing (before x after : List α) :
    weaveTo (fun _ _ => []) before x after = x := by
  induction x generalizing before with
  | nil => rfl
  | cons c x ih =>
    rw [weaveTo, ih]
    rfl

theorem weaveTo_eq_self {before x after : List α}
    (h : ∀ u v, x = u ++ v → v ≠ [] → ins (before ++ u) (v ++ after) = []) :
    weaveTo ins before x after = x :=
  (weaveTo_congr h).trans (weaveTo_nothing before x after)

theorem weave_eq_self {s : List α} (h : ∀ u v, s = u ++ v → ins u v = []) : weave ins s = s := by
  unfold weave
  rw [h s [] (List.append_nil s).symm, List.append_nil]
  refine weaveTo_eq_self fun u v huv _ => ?_
  rw [List.nil_append, List.append_nil]
  exact h u v huv

theorem weave_append {x y k : List α} (hmid : ins x y = k ++ ins [] y)
    (hy : ∀ u v, y = u ++ v → u ≠ [] → ins (x ++ u) v = ins u v) :
    weave ins (x ++ y) = weaveTo ins [] x y ++ (k ++ weave ins y) := by
  unfold weave
  rw [weaveTo_append, List.nil_append, List.append_nil, List.append_assoc]
  congr 1
  cases y with
  | nil =>
    rw [List.append_nil, weaveTo, List.nil_append, weaveTo, List.nil_append]
    exact hmid
  | cons c y =>
    have htail : weaveTo ins (x ++ [c]) y [] = weaveTo ins ([] ++ [c]) y [] := by
      refine weaveTo_congr fun u v huv hv => ?_
      have h := hy (c :: u) v (by rw [huv]; rfl) (List.cons_ne_nil c u)
      rw [List.append_nil, ← List.append_cons]
      exact h
    have hend := hy (c :: y) [] (List.append_nil _).symm (List.cons_ne_nil c y)
    rw [weaveTo, weaveTo, List.append_nil, hmid, htail, hend]
    simp only [List.append_assoc, List.cons_append]

theorem weave_append_of_apart {x y : List α} (hx : ∀ u v, x = u ++ v → v ≠ [] →
      ins u (v ++ y) = ins u v)
    (hmid : ins x y = ins x [] ++ ins [] y)
    (hy : ∀ u v, y = u ++ v → u ≠ [] → ins (x ++ u) v = ins u v) :
    weave ins (x ++ y) = weave ins x ++ weave ins y := by
  have hleft : weaveTo ins [] x y = weaveTo ins [] x [] := by
    refine weaveTo_congr fun u v huv hv => ?_
    rw [List.nil_append, List.append_nil]
    exact hx u v huv hv
  rw [weave_append hmid hy, hleft, ← List.append_assoc]
  rfl

theorem getLast?_weaveTo (before s after : List α) :
    (weaveTo ins before s after).getLast? = s.getLast? := by
  induction s using List.reverseRecOn with
  | nil => rfl
  | append_singleton s c _ => rw [weaveTo_concat, List.getLast?_append, List.getLast?_append]; simp

/-- At a place the two insertions are equal, or one of them has `k` more, which does not
end as the text before the place does. -/
def DifferByLast (ins ins' : List α → List α → List α) : Prop :=
  ∀ u v, ins u v = ins' u v ∨ ∃ k base, k ≠ [] ∧ k.getLast? ≠ u.getLast? ∧
    (ins u v = k ++ base ∧ ins' u v = base ∨ ins u v = base ∧ ins' u v = k ++ base)

theorem last_ins_eq {ins' : List α → List α → List α} (hdiff : DifferByLast ins ins')
    {s after : List α}
    (h : weaveTo ins [] s after ++ ins s after = weaveTo ins' [] s after ++ ins' s after) :
    ins s after = ins' s after := by
  rcases hdiff s after with heq | ⟨k, base, hk, hend, ⟨h1, h2⟩ | ⟨h1, h2⟩⟩
  · exact heq
  · rw [h1, h2, ← List.append_assoc, List.append_cancel_right_eq] at h
    have hl := congrArg List.getLast? h
    rw [List.getLast?_append_of_ne_nil _ hk, getLast?_weaveTo] at hl
    exact absurd hl hend
  · rw [h1, h2, ← List.append_assoc, List.append_cancel_right_eq] at h
    have hl := congrArg List.getLast? h
    rw [List.getLast?_append_of_ne_nil _ hk, getLast?_weaveTo] at hl
    exact absurd hl.symm hend

theorem ins_eq_of_weaveTo_eq {ins' : List α → List α → List α} (hdiff : DifferByLast ins ins')
    {s after : List α}
    (h : weaveTo ins [] s after ++ ins s after = weaveTo ins' [] s after ++ ins' s after)
    {u v : List α} (hs : s = u ++ v) : ins u (v ++ after) = ins' u (v ++ after) := by
  have hlast := last_ins_eq hdiff h
  induction s using List.reverseRecOn generalizing after v with
  | nil =>
    obtain ⟨rfl, rfl⟩ := List.append_eq_nil_iff.mp hs.symm
    exact hlast
  | append_singleton s c ih =>
    rcases List.eq_nil_or_concat v with rfl | ⟨v', d, rfl⟩
    · rw [List.append_nil] at hs
      rw [← hs]
      exact hlast
    · rw [List.concat_eq_append, ← List.append_assoc] at hs
      obtain ⟨hs', hcd⟩ := List.append_inj' hs rfl
      obtain rfl := (List.cons.inj hcd).1
      rw [hlast, List.append_cancel_right_eq, weaveTo_concat, weaveTo_concat, ← List.append_assoc,
        ← List.append_assoc, List.append_cancel_right_eq] at h
      have hnext := ih h hs' (last_ins_eq hdiff h)
      rwa [List.concat_eq_append, List.append_assoc]

theorem ins_eq_of_weave_eq {ins' : List α → List α → List α} (hdiff : DifferByLast ins ins')
    {s u v : List α} (h : weave ins s = weave ins' s) (hs : s = u ++ v) : ins u v = ins' u v := by
  have hplace := ins_eq_of_weaveTo_eq hdiff h hs
  rwa [List.append_nil] at hplace

end HaoosLfs
