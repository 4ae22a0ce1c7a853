import HaoosLfs.Lib.Forest

/-!
# Moving nodes between the levels of a forest

Children are hoisted behind their parent and nodes are dropped, and the nodes that are
left keep their order. Nodes hand attributes down to their children, level by level and
in place; what a node ends up with is a recursion along the nodes that enclose it.
-/

namespace HaoosLfs.Forest

variable {ι : Type}

def append : Forest ι → Forest ι → Forest ι
  | nil, g => g
  | node v cs ss, g => node v cs (ss.append g)

@[simp] theorem append_nil (f : Forest ι) : f.append nil = f := by
  induction f with
  | nil => rfl
  | node v cs ss _ ih => rw [append, ih]

theorem append_assoc (f g h : Forest ι) : (f.append g).append h = f.append (g.append h) := by
  induction f with
  | nil => rfl
  | node v cs ss _ ih => rw [append, append, append, ih]

@[simp] theorem preorder_append (f g : Forest ι) :
    (f.append g).preorder = f.preorder ++ g.preorder := by
  induction f with
  | nil => rfl
  | node v cs ss _ ih => simp [append, ih]

theorem subtrees_append (f g : Forest ι) : (f.append g).subtrees = f.subtrees ++ g.subtrees := by
  induction f with
  | nil => rfl
  | node v cs ss _ ih => simp [append, subtrees, ih]

theorem size_append (f g : Forest ι) : (f.append g).size = f.size + g.size := by
  induction f with
  | nil => simp [append, size]
  | node v cs ss _ ih =>
    simp only [append, size, ih]
    omega

/-! ### Hoisting and dropping -/

section

variable (hides drops : ι → Bool)

/-- The children of a root that hides come after it, in front of the rest. -/
def hoist : Forest ι → Forest ι → Forest ι
  | nil, t => t
  | node v cs ss, t =>
    if hides v then node v nil (hoist cs (hoist ss t)) else node v cs (hoist ss t)

def dropRoots : Forest ι → Forest ι
  | nil => nil
  | node v cs ss => if drops v then dropRoots ss else node v cs (dropRoots ss)

def Clear : Forest ι → Prop
  | nil => True
  | node _ cs ss => (∀ x ∈ cs.preorder, drops x = false) ∧ Clear ss

variable {hides drops}

theorem clear_of_forall {f : Forest ι} (h : ∀ x ∈ f.preorder, drops x = false) :
    Clear drops f := by
  induction f with
  | nil => trivial
  | node v cs ss _ ih =>
    refine ⟨fun x hx => h x (mem_node.mpr (.inr (.inl hx))), ih fun x hx => ?_⟩
    exact h x (mem_node.mpr (.inr (.inr hx)))

theorem clear_append {f g : Forest ι} (hf : Clear drops f) (hg : Clear drops g) :
    Clear drops (f.append g) := by
  induction f with
  | nil => exact hg
  | node v cs ss _ ih => exact ⟨hf.1, ih hf.2⟩

theorem filter_of_clear {l : List ι} (h : ∀ x ∈ l, drops x = false) :
    l.filter (fun x => !drops x) = l := by
  rw [List.filter_eq_self]
  intro x hx
  rw [h x hx, Bool.not_false]

theorem preorder_dropRoots_hoist {f : Forest ι}
    (hd : ∀ x ∈ f.preorder, drops x = true → hides x = true) (hf : Clear drops f) (t : Forest ι) :
    (dropRoots drops (hoist hides f t)).preorder =
      f.preorder.filter (fun x => !drops x) ++ (dropRoots drops t).preorder := by
  induction f generalizing t with
  | nil => rfl
  | node v cs ss ihc ihs =>
    obtain ⟨hcs, hss⟩ := hf
    have hc := ihc (fun x hx => hd x (mem_node.mpr (.inr (.inl hx)))) (clear_of_forall hcs)
    have hs := ihs (fun x hx => hd x (mem_node.mpr (.inr (.inr hx)))) hss
    have hsplit : (node v cs ss).preorder.filter (fun x => !drops x) =
        [v].filter (fun x => !drops x) ++ cs.preorder ++
          ss.preorder.filter (fun x => !drops x) := by
      rw [preorder_node, ← List.singleton_append, List.filter_append, List.filter_append,
        filter_of_clear hcs, List.append_assoc]
    rw [hsplit, hoist]
    cases hv : drops v with
    | true =>
      rw [if_pos (hd v (mem_node.mpr (.inl rfl)) hv), dropRoots, if_pos hv, hc, hs,
        filter_of_clear hcs]
      simp [hv]
    | false =>
      have hv' : ¬drops v = true := by rw [hv]; exact Bool.false_ne_true
      split_ifs
      · rw [dropRoots, if_neg hv', preorder_node, hc, hs, filter_of_clear hcs]
        simp [hv]
      · rw [dropRoots, if_neg hv', preorder_node, hs]
        simp [hv]

/-- The nodes that stay visible with their children, each after what is below it. -/
def closing (keeps : ι → Bool) : Forest ι → List (ι × Forest ι)
  | nil => []
  | node v cs ss =>
    closing keeps cs ++ (if keeps v then [(v, cs)] else []) ++ closing keeps ss

variable {keeps : ι → Bool}

theorem closing_append (f g : Forest ι) :
    closing keeps (f.append g) = closing keeps f ++ closing keeps g := by
  induction f with
  | nil => rfl
  | node v cs ss _ ih => simp [append, closing, ih]

theorem mem_closing {t : ι × Forest ι} {f : Forest ι} (h : t ∈ closing keeps f) :
    keeps t.1 = true ∧ t.1 ∈ f.preorder := by
  induction f with
  | nil => cases h
  | node v cs ss ihc ihs =>
    rw [mem_node]
    simp only [closing, List.mem_append] at h
    rcases h with (h | h) | h
    · exact ⟨(ihc h).1, .inr (.inl (ihc h).2)⟩
    · split_ifs at h with hv
      · rw [List.mem_singleton.mp h]
        exact ⟨hv, .inl rfl⟩
      · cases h
    · exact ⟨(ihs h).1, .inr (.inr (ihs h).2)⟩

theorem closing_subset {t : ι × Forest ι} {f : Forest ι} (h : t ∈ closing keeps f) :
    t.2.preorder ⊆ f.preorder := by
  induction f with
  | nil => cases h
  | node v cs ss ihc ihs =>
    intro x hx
    rw [mem_node]
    simp only [closing, List.mem_append] at h
    rcases h with (h | h) | h
    · exact .inr (.inl (ihc h hx))
    · split_ifs at h
      · rw [List.mem_singleton.mp h] at hx
        exact .inr (.inl hx)
      · cases h
    · exact .inr (.inr (ihs h hx))

theorem closing_dropRoots_hoist (hk : ∀ x, keeps x = true → hides x = false) {f : Forest ι}
    (hd : ∀ x ∈ f.preorder, drops x = true → hides x = true) (hf : Clear drops f)
    (t : Forest ι) :
    closing keeps (dropRoots drops (hoist hides f t)) =
      closing keeps f ++ closing keeps (dropRoots drops t) := by
  induction f generalizing t with
  | nil => rfl
  | node v cs ss ihc ihs =>
    obtain ⟨hcs, hss⟩ := hf
    have hc := ihc (fun x hx => hd x (mem_node.mpr (.inr (.inl hx)))) (clear_of_forall hcs)
    have hs := ihs (fun x hx => hd x (mem_node.mpr (.inr (.inr hx)))) hss
    rw [hoist]
    cases hv : hides v with
    | true =>
      have hkeep : keeps v = false := by
        by_contra hne
        rw [hk v (by simpa using hne)] at hv
        cases hv
      rw [if_pos rfl, dropRoots]
      split_ifs
      · simp [closing, hkeep, hc, hs]
      · simp [closing, hkeep, hc, hs]
    | false =>
      have hdrop : drops v = false := by
        by_contra hne
        rw [hd v (mem_node.mpr (.inl rfl)) (by simpa using hne)] at hv
        cases hv
      simp [dropRoots, hdrop, closing, hs]

end

/-! ### Attributes that are handed down -/

def paths : List ι → Forest ι → List (ι × List ι)
  | _, nil => []
  | ps, node v cs ss => (v, ps) :: (paths (v :: ps) cs ++ paths ps ss)

theorem paths_map_fst (ps : List ι) (f : Forest ι) : (paths ps f).map Prod.fst = f.preorder := by
  induction f generalizing ps with
  | nil => rfl
  | node v cs ss ihc ihs => simp [paths, ihc, ihs]

theorem paths_cons {p : ι} {ps : List ι} {t : ι × List ι} {f : Forest ι}
    (h : t ∈ paths (p :: ps) f) : ∃ q qs, t.2 = q :: qs := by
  induction f generalizing p ps with
  | nil => cases h
  | node v cs ss ihc ihs =>
    simp only [paths, List.mem_cons, List.mem_append] at h
    rcases h with h | h | h
    · exact ⟨p, ps, by rw [h]⟩
    · exact ihc h
    · exact ihs h

theorem exists_path (ps : List ι) {f : Forest ι} {x : ι} (h : x ∈ f.preorder) :
    ∃ t ∈ paths ps f, t.1 = x := by
  rw [← paths_map_fst ps] at h
  exact List.mem_map.mp h

theorem mem_of_paths {x : ι} {qs ps : List ι} {f : Forest ι} (h : (x, qs) ∈ paths ps f) :
    x ∈ f.preorder := by
  rw [← paths_map_fst ps]
  exact List.mem_map_of_mem h

theorem mem_roots_node {x v : ι} {cs ss : Forest ι} (hx : x ∈ cs.preorder)
    (hn : (node v cs ss).preorder.Nodup) : x ∉ (node v cs ss).roots := by
  obtain ⟨hvc, -, -, -, hdisj⟩ := nodup_node.mp hn
  rw [roots_node, List.mem_cons, not_or]
  exact ⟨fun he => hvc (he ▸ hx), fun hr => hdisj x hx (roots_subset ss hr)⟩

section

variable {N A : Type} [DecidableEq ι] (down : A → N → A) (push : A → N → N → N)

def pushRoots (a : A) (n : N) : Forest ι → (ι → N) → ι → N
  | nil, h => h
  | node v _ ss, h => pushRoots a n ss (Function.update h v (push a n (h v)))

/-- Each level takes over from the node above it, whose own attributes are settled. -/
def passDown (a : A) : Forest ι → (ι → N) → ι → N
  | nil, h => h
  | node v cs ss, h =>
    passDown a ss (passDown (down a (h v)) cs (pushRoots push (down a (h v)) (h v) cs h))

mutual

/-- What reaches the children below a path, and what a node with that path becomes. -/
def attrAt (a : A) (h : ι → N) : List ι → A
  | [] => a
  | p :: ps => down (attrAt a h ps) (nodeAt a h ps p)

def nodeAt (a : A) (h : ι → N) : List ι → ι → N
  | [], v => h v
  | p :: ps, v => push (down (attrAt a h ps) (nodeAt a h ps p)) (nodeAt a h ps p) (h v)

end

variable {down push}

theorem pushRoots_frame (a : A) (n : N) {f : Forest ι} (h : ι → N) {x : ι} (hx : x ∉ f.roots) :
    pushRoots push a n f h x = h x := by
  induction f generalizing h with
  | nil => rfl
  | node v cs ss _ ih =>
    rw [roots_node, List.mem_cons, not_or] at hx
    rw [pushRoots, ih _ hx.2, Function.update_of_ne hx.1]

theorem pushRoots_root (a : A) (n : N) {f : Forest ι} (hn : f.preorder.Nodup) (h : ι → N) {x : ι}
    (hx : x ∈ f.roots) : pushRoots push a n f h x = push a n (h x) := by
  induction f generalizing h with
  | nil => cases hx
  | node v cs ss _ ih =>
    obtain ⟨-, hvs, -, hss, -⟩ := nodup_node.mp hn
    rw [roots_node, List.mem_cons] at hx
    rw [pushRoots]
    rcases hx with rfl | hx
    · rw [pushRoots_frame _ _ _ fun hr => hvs (roots_subset ss hr), Function.update_self]
    · have hne : x ≠ v := fun he => hvs (he ▸ roots_subset ss hx)
      rw [ih hss _ hx, Function.update_of_ne hne]

omit [DecidableEq ι] in
theorem nodeAt_keeps {β : Type} {g : N → β} (hg : ∀ a n m, g (push a n m) = g m) (a : A)
    (h : ι → N) (ps : List ι) (v : ι) : g (nodeAt down push a h ps v) = g (h v) := by
  cases ps with
  | nil => rfl
  | cons p ps => exact hg _ _ _

theorem passDown_append (a : A) (f g : Forest ι) (h : ι → N) :
    passDown down push a (f.append g) h = passDown down push a g (passDown down push a f h) := by
  induction f generalizing h with
  | nil => rfl
  | node v cs ss _ ih => rw [append, passDown, ih, passDown]

theorem passDown_frame {a : A} {f : Forest ι} {h : ι → N} {x : ι} (hx : x ∉ f.preorder) :
    passDown down push a f h x = h x := by
  induction f generalizing a h with
  | nil => rfl
  | node v cs ss ihc ihs =>
    rw [mem_node, not_or, not_or] at hx
    rw [passDown, ihs hx.2.2, ihc hx.2.1,
      pushRoots_frame _ _ _ fun hr => hx.2.1 (roots_subset cs hr)]

theorem pushRoots_keeps {β : Type} {g : N → β} (hg : ∀ a n m, g (push a n m) = g m) (a : A)
    (n : N) (f : Forest ι) (h : ι → N) (x : ι) : g (pushRoots push a n f h x) = g (h x) := by
  induction f generalizing h with
  | nil => rfl
  | node v cs ss _ ih =>
    rw [pushRoots, ih]
    by_cases hx : x = v
    · rw [hx, Function.update_self, hg]
    · rw [Function.update_of_ne hx]

theorem passDown_keeps {β : Type} {g : N → β} (hg : ∀ a n m, g (push a n m) = g m) {a : A}
    {f : Forest ι} {h : ι → N} (x : ι) : g (passDown down push a f h x) = g (h x) := by
  induction f generalizing a h with
  | nil => rfl
  | node v cs ss ihc ihs => rw [passDown, ihs, ihc, pushRoots_keeps hg]

/-- Handing down in place makes of each node what the recursion along its path does, where
the roots have taken over already. -/
theorem passDown_eq {a : A} {h : ι → N} {f : Forest ι} (hn : f.preorder.Nodup) {ps : List ι}
    {h' : ι → N} (hroots : ∀ x ∈ f.roots, h' x = nodeAt down push a h ps x)
    (hbelow : ∀ x ∈ f.preorder, x ∉ f.roots → h' x = h x) {x : ι} {qs : List ι}
    (hx : (x, qs) ∈ paths ps f) :
    passDown down push (attrAt down push a h ps) f h' x = nodeAt down push a h qs x := by
  induction f generalizing ps h' with
  | nil => cases hx
  | node v cs ss ihc ihs =>
    obtain ⟨hvc, hvs, hcs, hss, hdisj⟩ := nodup_node.mp hn
    have hv : h' v = nodeAt down push a h ps v := hroots v List.mem_cons_self
    have hattr : down (attrAt down push a h ps) (h' v) = attrAt down push a h (v :: ps) := by
      rw [hv]
      rfl
    have hold : ∀ y ∈ cs.preorder, h' y = h y := fun y hy =>
      hbelow y (mem_node.mpr (.inr (.inl hy))) (mem_roots_node hy hn)
    -- the children take over from `v`
    generalize hpush : pushRoots push (down (attrAt down push a h ps) (h' v)) (h' v) cs h' = h1
    have hroots1 : ∀ y ∈ cs.roots, h1 y = nodeAt down push a h (v :: ps) y := by
      intro y hy
      rw [← hpush, pushRoots_root _ _ hcs _ hy, hold y (roots_subset cs hy), hv]
      rfl
    have hbelow1 : ∀ y ∈ cs.preorder, y ∉ cs.roots → h1 y = h y := by
      intro y hy hr
      rw [← hpush, pushRoots_frame _ _ _ hr, hold y hy]
    have hframe1 : ∀ y, y ∉ cs.preorder → h1 y = h' y := by
      intro y hy
      rw [← hpush, pushRoots_frame _ _ _ fun hr => hy (roots_subset cs hr)]
    -- what follows `v` has not changed
    generalize hpass : passDown down push (attrAt down push a h (v :: ps)) cs h1 = h2
    have hframe2 : ∀ y, y ∉ cs.preorder → h2 y = h' y := by
      intro y hy
      rw [← hpass, passDown_frame hy, hframe1 y hy]
    have hout : ∀ y ∈ ss.preorder, y ∉ cs.preorder := fun y hy hc => hdisj y hc hy
    rw [passDown, hpush, hattr, hpass]
    simp only [paths, List.mem_cons, List.mem_append, Prod.mk.injEq] at hx
    rcases hx with hx | hx | hx
    · rw [hx.1, hx.2, passDown_frame hvs, hframe2 v hvc, hv]
    · have hmem := mem_of_paths hx
      rw [passDown_frame (hdisj x hmem), ← hpass]
      exact ihc hcs hroots1 hbelow1 hx
    · refine ihs hss (fun y hy => ?_) (fun y hy hr => ?_) hx
      · rw [hframe2 y (hout y (roots_subset ss hy)), hroots y (List.mem_cons_of_mem _ hy)]
      · refine (hframe2 y (hout y hy)).trans (hbelow y (mem_node.mpr (.inr (.inr hy))) ?_)
        rw [roots_node, List.mem_cons, not_or]
        exact ⟨fun he => hvs (he ▸ hy), hr⟩

end

end HaoosLfs.Forest
