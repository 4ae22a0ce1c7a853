import HaoosLfs.Lib.Files

/-!
# Writes to files that are not certain

A redirection to an unquoted name writes this file, unless the shell takes the name for a
pattern: then it may be another file, or none. What a sequence of such writes leaves in a file
is decided by the last ones that may go there.
-/

namespace HaoosLfs

/-- One write, to the file `target`, or where this is not certain to one of `others` or to no
file. A file without content is removed. -/
structure Redirect (α : Type) where
  target : Option Text
  others : Text → Prop
  content : Option α

namespace Redirect
variable {α : Type}

def MayWrite (r : Redirect α) (path : Text) : Prop :=
  r.target = some path ∨ r.target = none ∧ r.others path

/-- What one write may make of the files. -/
inductive Turn (r : Redirect α) (t : Files α) : Files α → Prop
  | written {path : Text} (h : r.MayWrite path) :
      Turn r t fun p => if p = path then r.content else t p
  | failed (h : r.target = none) : Turn r t t

def Turns : Files α → List (Redirect α) → Files α → Prop
  | t, [], t' => t' = t
  | t, r :: rs, t' => ∃ t₁, Turn r t t₁ ∧ Turns t₁ rs t'

/-- The write may go to this file, and no later one is certain to. -/
def IsLast (rs : List (Redirect α)) (path : Text) (r : Redirect α) : Prop :=
  ∃ before after, rs = before ++ r :: after ∧ r.MayWrite path ∧
    ∀ s ∈ after, s.target ≠ some path

variable {t t' : Files α} {path : Text}

theorem turns_append {rs ss : List (Redirect α)} :
    Turns t (rs ++ ss) t' ↔ ∃ t₁, Turns t rs t₁ ∧ Turns t₁ ss t' := by
  induction rs generalizing t with
  | nil => simp [Turns]
  | cons r rs ih =>
    simp only [List.cons_append, Turns, ih]
    constructor
    · rintro ⟨t₁, h₁, t₂, h₂, h₃⟩
      exact ⟨t₂, ⟨t₁, h₁, h₂⟩, h₃⟩
    · rintro ⟨t₂, ⟨t₁, h₁, h₂⟩, h₃⟩
      exact ⟨t₁, h₁, t₂, h₂, h₃⟩

theorem exists_turn (r : Redirect α) (t : Files α) :
    ∃ t', Turn r t t' ∧ ∀ path, r.target ≠ some path → t' path = t path := by
  cases hr : r.target with
  | none => exact ⟨t, .failed hr, fun _ _ => rfl⟩
  | some q =>
    refine ⟨_, .written (.inl hr), fun path hpath => if_neg fun he => hpath ?_⟩
    rw [he]

theorem exists_turns (rs : List (Redirect α)) (t : Files α) :
    ∃ t', Turns t rs t' ∧ ∀ path, (∀ r ∈ rs, r.target ≠ some path) → t' path = t path := by
  induction rs generalizing t with
  | nil => exact ⟨t, rfl, fun _ _ => rfl⟩
  | cons r rs ih =>
    obtain ⟨t₁, h₁, hkept₁⟩ := exists_turn r t
    obtain ⟨t', h', hkept⟩ := ih t₁
    refine ⟨t', ⟨t₁, h₁, h'⟩, fun path hpath => ?_⟩
    obtain ⟨hr, hrs⟩ := List.forall_mem_cons.mp hpath
    rw [hkept path hrs, hkept₁ path hr]

theorem exists_turns_last {rs : List (Redirect α)} {r : Redirect α} (h : IsLast rs path r)
    (t : Files α) : ∃ t', Turns t rs t' ∧ t' path = r.content := by
  obtain ⟨before, after, rfl, hwrite, hafter⟩ := h
  obtain ⟨t₁, h₁, -⟩ := exists_turns before t
  obtain ⟨t', h', hkept⟩ := exists_turns after fun p => if p = path then r.content else t₁ p
  refine ⟨t', turns_append.mpr ⟨t₁, h₁, _, .written hwrite, h'⟩, ?_⟩
  rw [hkept path hafter, if_pos rfl]

/-- After the writes a file is as one of the last ones leaves it, or untouched. -/
theorem content_of_turns {rs : List (Redirect α)} (h : Turns t rs t') :
    (∃ r, IsLast rs path r ∧ t' path = r.content) ∨
      (∀ r ∈ rs, r.target ≠ some path) ∧ t' path = t path := by
  induction rs using List.reverseRecOn generalizing t' with
  | nil => exact .inr ⟨List.forall_mem_nil _, congrFun h path⟩
  | append_singleton rs r ih =>
    obtain ⟨t₁, h₁, t₂, hturn, rfl⟩ := turns_append.mp h
    have hold : r.target ≠ some path → t' path = t₁ path →
        (∃ s, IsLast (rs ++ [r]) path s ∧ t' path = s.content) ∨
          (∀ s ∈ rs ++ [r], s.target ≠ some path) ∧ t' path = t path := by
      intro hr hsame
      rw [hsame]
      rcases ih h₁ with ⟨s, ⟨before, after, rfl, hs, hafter⟩, hcontent⟩ | ⟨hnone, hkept⟩
      · refine .inl ⟨s, ⟨before, after ++ [r], by simp, hs, ?_⟩, hcontent⟩
        exact List.forall_mem_append.mpr ⟨hafter, List.forall_mem_singleton.mpr hr⟩
      · exact .inr ⟨List.forall_mem_append.mpr ⟨hnone, List.forall_mem_singleton.mpr hr⟩, hkept⟩
    cases hturn with
    | failed hr => exact hold (by simp [hr]) rfl
    | @written q hq =>
      by_cases hpath : path = q
      · subst hpath
        exact .inl ⟨r, ⟨rs, [], rfl, hq, List.forall_mem_nil _⟩, if_pos rfl⟩
      · refine hold (fun hr => hpath ?_) (if_neg hpath)
        rcases hq with hq | ⟨hnone, -⟩
        · exact Option.some.inj (hr.symm.trans hq)
        · rw [hnone] at hr
          cases hr

theorem isLast_append {rs ss : List (Redirect α)} {r : Redirect α}
    (h : IsLast (rs ++ ss) path r) : IsLast rs path r ∨ IsLast ss path r := by
  obtain ⟨before, after, hsplit, hwrite, hafter⟩ := h
  rcases List.append_eq_append_iff.mp hsplit with ⟨a, rfl, ha⟩ | ⟨a, rfl, ha⟩
  · exact .inr ⟨a, after, ha, hwrite, hafter⟩
  · cases a with
    | nil => exact .inr ⟨[], after, ha.symm, hwrite, hafter⟩
    | cons b a =>
      obtain ⟨rfl, rfl⟩ := List.cons.inj ha
      exact .inl ⟨before, a, rfl, hwrite, fun s hs => hafter s (List.mem_append_left _ hs)⟩

theorem isLast_flatMap {β : Type} {f : β → List (Redirect α)} {bs : List β} {r : Redirect α}
    (h : IsLast (bs.flatMap f) path r) : ∃ b ∈ bs, IsLast (f b) path r := by
  induction bs with
  | nil =>
    obtain ⟨before, after, hsplit, -⟩ := h
    simp at hsplit
  | cons b bs ih =>
    rcases isLast_append h with h | h
    · exact ⟨b, List.mem_cons_self, h⟩
    · obtain ⟨c, hc, hlast⟩ := ih h
      exact ⟨c, List.mem_cons_of_mem _ hc, hlast⟩

end Redirect

end HaoosLfs
