import Mathlib

/-!
# Lists: disjoint supports, places to split, groups
-/

namespace HaoosLfs
variable {α : Type}

theorem cons_if_iff {v : α} {b c : Prop} [Decidable b] [Decidable c] {xs ys : List α}
    (hx : v ∉ xs) (hy : v ∉ ys) :
    (if b then [v] else []) ++ xs = (if c then [v] else []) ++ ys ↔ (c ↔ b) ∧ xs = ys := by
  by_cases hb : b <;> by_cases hc : c
  · simp [hb, hc]
  · simp only [hb, hc, if_true, if_false, List.nil_append, List.singleton_append]
    constructor
    · intro h
      exact absurd (h ▸ List.mem_cons_self ..) hy
    · rintro ⟨h, -⟩
      exact absurd (h.mpr trivial) id
  · simp only [hb, hc, if_true, if_false, List.nil_append, List.singleton_append]
    constructor
    · intro h
      exact absurd (h ▸ List.mem_cons_self ..) hx
    · rintro ⟨h, -⟩
      exact absurd (h.mp trivial) id
  · simp [hb, hc]

theorem append_cross_iff {s : α → Prop} {A B P Q X Y : List α}
    (hA : ∀ x ∈ A, s x) (hP : ∀ x ∈ P, s x) (hX : ∀ x ∈ X, s x)
    (hB : ∀ x ∈ B, ¬ s x) (hQ : ∀ x ∈ Q, ¬ s x) (hY : ∀ x ∈ Y, ¬ s x) :
    A ++ B ++ (P ++ Q) = X ++ Y ↔ A ++ P = X ∧ B ++ Q = Y ∧ (B = [] ∨ P = []) := by
  classical
  have yes : ∀ {xs : List α}, (∀ x ∈ xs, s x) → xs.filter (fun x => decide (s x)) = xs :=
    fun h => List.filter_eq_self.mpr fun x hx => decide_eq_true (h x hx)
  have no : ∀ {xs : List α}, (∀ x ∈ xs, ¬ s x) → xs.filter (fun x => decide (s x)) = [] :=
    fun h => List.filter_eq_nil_iff.mpr fun x hx => by simpa using h x hx
  have yes' : ∀ {xs : List α}, (∀ x ∈ xs, ¬ s x) → xs.filter (fun x => decide (¬ s x)) = xs :=
    fun h => List.filter_eq_self.mpr fun x hx => decide_eq_true (h x hx)
  have no' : ∀ {xs : List α}, (∀ x ∈ xs, s x) → xs.filter (fun x => decide (¬ s x)) = [] :=
    fun h => List.filter_eq_nil_iff.mpr fun x hx => by simpa using h x hx
  constructor
  · intro h
    have h1 := congrArg (List.filter fun x => decide (s x)) h
    have h2 := congrArg (List.filter fun x => decide (¬ s x)) h
    simp only [List.filter_append, yes hA, yes hP, yes hX, no hB, no hQ, no hY,
      List.append_nil] at h1
    simp only [List.filter_append, no' hA, no' hP, no' hX, yes' hB, yes' hQ, yes' hY,
      List.nil_append] at h2
    refine ⟨h1, h2, ?_⟩
    cases B with
    | nil => exact .inl rfl
    | cons b B =>
      cases P with
      | nil => exact .inr rfl
      | cons p P =>
        -- both `b` and `p` would stand right after `A`
        rw [← h1, ← h2, List.append_assoc, List.append_assoc] at h
        have h3 := List.append_cancel_left h
        have hbp : b = p := (List.cons.inj h3).1
        exact absurd (hP p (List.mem_cons_self ..)) (hbp ▸ hB b (List.mem_cons_self ..))
  · rintro ⟨rfl, rfl, rfl | rfl⟩ <;> simp

theorem forall_split_cons {P : List α → α → List α → Prop} {x : α} {xs : List α} :
    (∀ before y after, x :: xs = before ++ y :: after → P before y after) ↔
      P [] x xs ∧ ∀ before y after, xs = before ++ y :: after → P (x :: before) y after := by
  constructor
  · intro h
    exact ⟨h [] x xs rfl, fun before y after hs => h (x :: before) y after (by rw [hs]; rfl)⟩
  · rintro ⟨hx, h⟩ before y after hs
    cases before with
    | nil =>
      obtain ⟨rfl, rfl⟩ := List.cons.inj hs
      exact hx
    | cons z before =>
      obtain ⟨rfl, rfl⟩ := List.cons.inj hs
      exact h before y after rfl

theorem forall_split_append_singleton {P : List α → α → Prop} {x : α} {xs : List α} :
    (∀ before y after, xs ++ [x] = before ++ y :: after → P before y) ↔
      (∀ before y after, xs = before ++ y :: after → P before y) ∧ P xs x := by
  constructor
  · intro h
    refine ⟨fun before y after hs => h before y (after ++ [x]) ?_, h xs x [] rfl⟩
    rw [hs, List.append_assoc, List.cons_append]
  · rintro ⟨h, hx⟩ before y after hs
    rcases List.eq_nil_or_concat' after with rfl | ⟨after', z, rfl⟩
    · obtain ⟨rfl, hxy⟩ := List.append_inj' hs rfl
      obtain rfl := List.singleton_inj.mp hxy
      exact hx
    · rw [← List.cons_append, ← List.append_assoc] at hs
      exact h before y after' (List.append_inj' hs rfl).1

theorem forall_split_map {β : Type} {P : List β → β → Prop} {f : α → β} {xs : List α} :
    (∀ before y after, xs.map f = before ++ y :: after → P before y) ↔
      ∀ before x after, xs = before ++ x :: after → P (before.map f) (f x) := by
  constructor
  · intro h before x after hs
    exact h (before.map f) (f x) (after.map f) (by rw [hs, List.map_append, List.map_cons])
  · intro h before y after hs
    obtain ⟨before', rest, rfl, rfl, hrest⟩ := List.map_eq_append_iff.mp hs
    obtain ⟨x, after', rfl, rfl, -⟩ := List.map_eq_cons_iff.mp hrest
    exact h before' x after' rfl

/-- The elements up to the first that fails `p`, which is the last one. -/
def upToFirst (p : α → Bool) : List α → List α
  | [] => []
  | x :: xs => x :: if p x then upToFirst p xs else []

theorem upToFirst_prefix (p : α → Bool) (xs : List α) : upToFirst p xs <+: xs := by
  induction xs with
  | nil => exact List.prefix_rfl
  | cons x xs ih =>
    rw [upToFirst, List.prefix_cons_inj]
    split_ifs
    · exact ih
    · exact List.nil_prefix

theorem upToFirst_eq_self {p : α → Bool} {xs : List α} (h : ∀ x ∈ xs, p x = true) :
    upToFirst p xs = xs := by
  induction xs with
  | nil => rfl
  | cons x xs ih =>
    obtain ⟨hx, hxs⟩ := List.forall_mem_cons.mp h
    rw [upToFirst, if_pos hx, ih hxs]

theorem flatMap_prefix [DecidableEq α] {β : Type} {xs ys : List α} (hn : xs.Nodup)
    (h : ys <+: xs) (g : α → List β) :
    ys.flatMap g = xs.flatMap fun x => if x ∈ ys then g x else [] := by
  obtain ⟨zs, rfl⟩ := h
  have hrest : zs.flatMap (fun x => if x ∈ ys then g x else []) = [] :=
    List.flatMap_eq_nil_iff.mpr fun x hx =>
      if_neg fun hy => (List.nodup_append.mp hn).2.2 x hy x hx rfl
  have hfirst : ys.flatMap (fun x => if x ∈ ys then g x else []) = ys.flatMap g :=
    List.flatMap_congr fun x hx => if_pos hx
  rw [List.flatMap_append, hrest, List.append_nil, hfirst]

/-! ### Concatenations -/

section
variable {β : Type} {f g : β → List α} {xs : List β}

theorem flatMap_ite {p : β → Prop} [DecidablePred p] {f : β → α} {xs : List β} :
    xs.flatMap (fun x => if p x then [f x] else []) = (xs.filter fun x => decide (p x)).map f := by
  induction xs with
  | nil => rfl
  | cons x xs ih =>
    rw [List.flatMap_cons, ih]
    by_cases hp : p x
    · simp [hp]
    · simp [hp]

theorem length_flatMap_le (h : ∀ x ∈ xs, (f x).length ≤ (g x).length) :
    (xs.flatMap f).length ≤ (xs.flatMap g).length := by
  rw [List.length_flatMap, List.length_flatMap]
  exact List.sum_le_sum h

theorem flatMap_eq_iff (h : ∀ x ∈ xs, (f x).length ≤ (g x).length) :
    xs.flatMap f = xs.flatMap g ↔ ∀ x ∈ xs, f x = g x := by
  induction xs with
  | nil => simp
  | cons x xs ih =>
    rw [List.forall_mem_cons] at h ⊢
    rw [List.flatMap_cons, List.flatMap_cons]
    constructor
    · intro he
      have hlen := congrArg List.length he
      have hle := length_flatMap_le h.2
      have hx := h.1
      simp only [List.length_append] at hlen
      obtain ⟨hfx, hfs⟩ := List.append_inj he (by omega)
      exact ⟨hfx, (ih h.2).mp hfs⟩
    · intro ⟨hfx, hfs⟩
      rw [hfx, (ih h.2).mpr hfs]

end

/-! ### Groups -/

section
variable {κ : Type} [DecidableEq κ] {g : α → κ} {ks : List κ} {xs : List α}

def inGroups (g : α → κ) (ks : List κ) (xs : List α) : List α :=
  ks.flatMap fun k => xs.filter fun x => decide (g x = k)

theorem inGroups_perm (hks : ks.Nodup) (h : ∀ x ∈ xs, g x ∈ ks) : (inGroups g ks xs).Perm xs := by
  induction ks generalizing xs with
  | nil =>
    have hxs : xs = [] := List.eq_nil_iff_forall_not_mem.mpr fun x hx => List.not_mem_nil (h x hx)
    rw [hxs]
    exact List.Perm.refl _
  | cons k ks ih =>
    obtain ⟨hk, hks⟩ := List.nodup_cons.mp hks
    -- the later groups are those of the elements outside the first one
    have hrest : ∀ x ∈ xs.filter (fun x => !decide (g x = k)), g x ∈ ks := by
      intro x hx
      obtain ⟨hmem, hne⟩ := List.mem_filter.mp hx
      have hne' : g x ≠ k := by simpa using hne
      exact (List.mem_cons.mp (h x hmem)).resolve_left hne'
    have hsame : inGroups g ks (xs.filter fun x => !decide (g x = k)) = inGroups g ks xs := by
      refine List.flatMap_congr fun j hj => ?_
      rw [List.filter_filter]
      refine List.filter_congr fun x _ => ?_
      by_cases hx : g x = j
      · have hne : j ≠ k := ne_of_mem_of_not_mem hj hk
        simp [hx, hne]
      · simp [hx]
    have hperm := ih hks hrest
    rw [hsame] at hperm
    exact (hperm.append_left _).trans (List.filter_append_perm _ xs)

theorem inGroups_pairwise [LT κ] {r : α → α → Prop} (hks : ks.Pairwise (· < ·))
    (h : xs.Pairwise r) :
    (inGroups g ks xs).Pairwise fun x y => g x < g y ∨ g x = g y ∧ r x y := by
  rw [inGroups, List.pairwise_flatMap]
  constructor
  · intro k _
    refine (h.filter _).imp_of_mem fun {x y} hx hy hr => .inr ⟨?_, hr⟩
    rw [of_decide_eq_true (List.mem_filter.mp hx).2, of_decide_eq_true (List.mem_filter.mp hy).2]
  · refine hks.imp fun {j k} hjk x hx y hy => .inl ?_
    rw [of_decide_eq_true (List.mem_filter.mp hx).2, of_decide_eq_true (List.mem_filter.mp hy).2]
    exact hjk

end

end HaoosLfs
