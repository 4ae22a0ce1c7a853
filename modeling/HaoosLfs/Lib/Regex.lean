import HaoosLfs.Lib.Text

/-!
# Search for a pattern without repetition

A pattern is a sequence of classes of one character each, word boundaries and
the end of the text. `search` finds it at any position, as `re.search` does.
-/

namespace HaoosLfs.Regex

inductive Item where
  | one (p : Char → Bool)
  | boundary
  | eos

/-- `\w`, for ASCII text -/
def wordChar (c : Char) : Bool := c.isAlphanum || c = '_'

/-- Does the pattern match here, after the character `prev`? `$` also matches
before a final newline. -/
def matchHere : List Item → Option Char → Text → Bool
  | [], _, _ => true
  | .one _ :: _, _, [] => false
  | .one p :: is, _, c :: s => p c && matchHere is (some c) s
  | .boundary :: is, prev, s => prev.any wordChar != s.head?.any wordChar && matchHere is prev s
  | .eos :: is, prev, s => (s = [] || s = ['\n']) && matchHere is prev s

def searchFrom (is : List Item) : Option Char → Text → Bool
  | prev, [] => matchHere is prev []
  | prev, c :: s => matchHere is prev (c :: s) || searchFrom is (some c) s

def search (is : List Item) (s : Text) : Bool := searchFrom is none s

theorem last_read (c : Char) (u : Text) (prev : Option Char) :
    (c :: u).getLast?.or prev = u.getLast?.or (some c) := by
  rw [List.getLast?_cons]
  cases u.getLast? with
  | none => rfl
  | some d => rfl

theorem searchFrom_iff {is : List Item} {prev : Option Char} {s : Text} :
    searchFrom is prev s ↔ ∃ u t, s = u ++ t ∧ matchHere is (u.getLast?.or prev) t := by
  induction s generalizing prev with
  | nil =>
    constructor
    · exact fun h => ⟨[], [], rfl, h⟩
    · rintro ⟨u, t, hs, h⟩
      obtain ⟨rfl, rfl⟩ := List.append_eq_nil_iff.mp hs.symm
      exact h
  | cons c s ih =>
    simp only [searchFrom, Bool.or_eq_true, ih]
    constructor
    · rintro (h | ⟨u, t, rfl, h⟩)
      · exact ⟨[], c :: s, rfl, h⟩
      · refine ⟨c :: u, t, rfl, ?_⟩
        rw [last_read]
        exact h
    · rintro ⟨u, t, hs, h⟩
      cases u with
      | nil =>
        left
        rw [List.nil_append] at hs
        rw [hs]
        exact h
      | cons d u =>
        obtain ⟨rfl, rfl⟩ := List.cons.inj hs
        refine .inr ⟨u, t, rfl, ?_⟩
        rw [last_read] at h
        exact h

theorem matchHere_ones {ps : List (Char → Bool)} {is : List Item} {prev : Option Char} {s : Text} :
    matchHere (ps.map Item.one ++ is) prev s ↔
      ∃ w t, s = w ++ t ∧ List.Forall₂ (fun p c => p c = true) ps w ∧
        matchHere is (w.getLast?.or prev) t := by
  induction ps generalizing prev s with
  | nil =>
    constructor
    · exact fun h => ⟨[], s, rfl, .nil, h⟩
    · rintro ⟨w, t, rfl, hw, h⟩
      cases hw
      exact h
  | cons p ps ih =>
    cases s with
    | nil =>
      simp only [List.map_cons, List.cons_append, matchHere, Bool.false_eq_true, false_iff]
      rintro ⟨w, t, hs, hw, -⟩
      obtain ⟨rfl, -⟩ := List.append_eq_nil_iff.mp hs.symm
      cases hw
    | cons c s =>
      simp only [List.map_cons, List.cons_append, matchHere, Bool.and_eq_true, ih]
      constructor
      · rintro ⟨hp, w, t, rfl, hw, h⟩
        refine ⟨c :: w, t, rfl, .cons hp hw, ?_⟩
        rw [last_read]
        exact h
      · rintro ⟨w, t, hs, hw, h⟩
        cases hw with
        | @cons _ d _ w hp hw =>
          obtain ⟨rfl, rfl⟩ := List.cons.inj hs
          refine ⟨hp, w, t, rfl, hw, ?_⟩
          rw [last_read] at h
          exact h

end HaoosLfs.Regex
