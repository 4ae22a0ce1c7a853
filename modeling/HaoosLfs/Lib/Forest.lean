import Mathlib

/-!
# Ordered forests

Finite ordered forests in first-child / next-sibling form, their document
order, and the child forest stored under a label.
-/

namespace HaoosLfs

/-- An ordered forest: a first tree given by its label and its children, and
the trees that follow it. -/
inductive Forest (α : Type) where
  | nil : Forest α
  | node (a : α) (children siblings : Forest α) : Forest α
  deriving Repr, DecidableEq

namespace Forest
variable {α : Type}

def head? : Forest α → Option α
  | nil => none
  | node a _ _ => some a

def size : Forest α → ℕ
  | nil => 0
  | node _ cs ss => cs.size + ss.size + 1

/-- Labels in document order: a node, its children, then what follows it. -/
def preorder : Forest α → List α
  | nil => []
  | node a cs ss => a :: (cs.preorder ++ ss.preorder)

/-- The top-level trees, each as its label and its children. -/
def trees : Forest α → List (α × Forest α)
  | nil => []
  | node a cs ss => (a, cs) :: ss.trees

/-- All nodes in document order, each with its children. -/
def subtrees : Forest α → List (α × Forest α)
  | nil => []
  | node a cs ss => (a, cs) :: (cs.subtrees ++ ss.subtrees)

@[simp] theorem preorder_nil : (nil : Forest α).preorder = [] := rfl

@[simp] theorem preorder_node (a : α) (cs ss : Forest α) :
    (node a cs ss).preorder = a :: (cs.preorder ++ ss.preorder) := rfl

@[simp] theorem head?_node (a : α) (cs ss : Forest α) : (node a cs ss).head? = some a := rfl

theorem head?_mem {f : Forest α} {a : α} (h : f.head? = some a) : a ∈ f.preorder := by
  cases f with
  | nil => cases h
  | node b cs ss =>
    cases h
    exact List.mem_cons_self ..

theorem mem_node {x a : α} {cs ss : Forest α} :
    x ∈ (node a cs ss).preorder ↔ x = a ∨ x ∈ cs.preorder ∨ x ∈ ss.preorder := by
  simp

theorem nodup_node {a : α} {cs ss : Forest α} :
    (node a cs ss).preorder.Nodup ↔
      a ∉ cs.preorder ∧ a ∉ ss.preorder ∧ cs.preorder.Nodup ∧ ss.preorder.Nodup ∧
        ∀ x ∈ cs.preorder, x ∉ ss.preorder := by
  rw [preorder_node, List.nodup_cons, List.nodup_append, List.mem_append]
  constructor
  · rintro ⟨ha, hc, hs, hd⟩
    exact ⟨fun h => ha (.inl h), fun h => ha (.inr h), hc, hs, fun x hx hy => hd x hx x hy rfl⟩
  · rintro ⟨hac, has, hc, hs, hd⟩
    refine ⟨fun h => h.elim hac has, hc, hs, fun x hx y hy e => ?_⟩
    subst e
    exact hd x hx hy

/-! ### Subtrees -/

theorem subtrees_map_fst (f : Forest α) : f.subtrees.map Prod.fst = f.preorder := by
  induction f with
  | nil => rfl
  | node a cs ss ihc ihs => simp [subtrees, ihc, ihs]

theorem trees_subset (f : Forest α) : f.trees ⊆ f.subtrees := by
  induction f with
  | nil => simp [trees]
  | node a cs ss _ ihs =>
    intro t ht
    rcases List.mem_cons.mp ht with rfl | ht
    · exact List.mem_cons_self
    · exact List.mem_cons_of_mem _ (List.mem_append_right _ (ihs ht))

theorem subtrees_subset {f cs : Forest α} {a : α} (h : (a, cs) ∈ f.subtrees) :
    cs.subtrees ⊆ f.subtrees := by
  induction f with
  | nil => cases h
  | node b ds ss ihd ihs =>
    intro t ht
    rcases List.mem_cons.mp h with he | h
    · cases he
      exact List.mem_cons_of_mem _ (List.mem_append_left _ ht)
    · rcases List.mem_append.mp h with h | h
      · exact List.mem_cons_of_mem _ (List.mem_append_left _ (ihd h ht))
      · exact List.mem_cons_of_mem _ (List.mem_append_right _ (ihs h ht))

theorem preorder_subset {f cs : Forest α} {a : α} (h : (a, cs) ∈ f.subtrees) :
    a ∈ f.preorder ∧ cs.preorder ⊆ f.preorder := by
  rw [← subtrees_map_fst, ← subtrees_map_fst]
  exact ⟨List.mem_map_of_mem h, List.map_subset _ (subtrees_subset h)⟩

/-! ### The top of a forest

What is said at a node can be said at its parent instead: nothing changes when, in each
list of siblings, nothing is said below a tree that stands before a tree that speaks. -/

def roots (f : Forest α) : List α := f.trees.map Prod.fst

@[simp] theorem roots_nil : (nil : Forest α).roots = [] := rfl

@[simp] theorem roots_node (a : α) (cs ss : Forest α) :
    (node a cs ss).roots = a :: ss.roots := rfl

theorem roots_subset (f : Forest α) : f.roots ⊆ f.preorder := by
  rw [← subtrees_map_fst]
  exact List.map_subset _ f.trees_subset

def Quiet {β : Type} (g : α → List β) : Forest α → Prop
  | nil => True
  | node _ cs ss => (ss.roots.flatMap g = [] ∨ cs.preorder.flatMap g = []) ∧ Quiet g ss

section
variable {β : Type} {g : α → List β}

theorem quiet_of_roots {f : Forest α} (h : f.roots.flatMap g = []) : Quiet g f := by
  induction f with
  | nil => trivial
  | node a cs ss _ ihs =>
    rw [roots_node, List.flatMap_cons] at h
    have hss := (List.append_eq_nil_iff.mp h).2
    exact ⟨.inl hss, ihs hss⟩

theorem roots_append_flatMap {f : Forest α} (hf : Quiet g f)
    (hs : ∀ t ∈ f.subtrees, Quiet g t.2) :
    f.roots.flatMap g ++ f.subtrees.flatMap (fun t => t.2.roots.flatMap g) =
      f.preorder.flatMap g := by
  induction f with
  | nil => rfl
  | node a cs ss ihc ihs =>
    obtain ⟨hq, hss⟩ := hf
    have hcs : Quiet g cs := hs (a, cs) List.mem_cons_self
    have hc := ihc hcs fun t ht => hs t (List.mem_cons_of_mem _ (List.mem_append_left _ ht))
    have hr := ihs hss fun t ht => hs t (List.mem_cons_of_mem _ (List.mem_append_right _ ht))
    -- what the siblings say moves past the children, one of the two being silent
    have hswap : ss.roots.flatMap g ++ cs.preorder.flatMap g =
        cs.preorder.flatMap g ++ ss.roots.flatMap g := by
      rcases hq with hq | hq
      · rw [hq, List.append_nil, List.nil_append]
      · rw [hq, List.append_nil, List.nil_append]
    calc (node a cs ss).roots.flatMap g ++
          (node a cs ss).subtrees.flatMap (fun t => t.2.roots.flatMap g)
        = g a ++ (ss.roots.flatMap g ++ (cs.roots.flatMap g ++
            cs.subtrees.flatMap (fun t => t.2.roots.flatMap g)) ++
              ss.subtrees.flatMap (fun t => t.2.roots.flatMap g)) := by
          simp only [roots_node, subtrees, List.flatMap_cons, List.flatMap_append,
            List.append_assoc]
      _ = g a ++ (cs.preorder.flatMap g ++ (ss.roots.flatMap g ++
            ss.subtrees.flatMap (fun t => t.2.roots.flatMap g))) := by
          rw [hc, hswap, List.append_assoc]
      _ = (node a cs ss).preorder.flatMap g := by
          rw [hr, preorder_node, List.flatMap_cons, List.flatMap_append]

end

/-! ### The children of a label -/

variable [DecidableEq α]

/-- The child forest of the first node labelled `u`. -/
def childrenOf (u : α) : Forest α → Option (Forest α)
  | nil => none
  | node a cs ss => if a = u then some cs else (cs.childrenOf u).or (ss.childrenOf u)

theorem childrenOf_node {u a : α} {cs ss g : Forest α}
    (h : (node a cs ss).childrenOf u = some g) :
    (a = u ∧ cs = g) ∨ (a ≠ u ∧ cs.childrenOf u = some g) ∨ (a ≠ u ∧ ss.childrenOf u = some g) := by
  by_cases hau : a = u
  · simp only [childrenOf, hau, if_true, Option.some.injEq] at h
    exact .inl ⟨hau, h⟩
  · simp only [childrenOf, hau, if_false] at h
    rcases Option.or_eq_some_iff.mp h with hc | ⟨-, hs⟩
    · exact .inr (.inl ⟨hau, hc⟩)
    · exact .inr (.inr ⟨hau, hs⟩)

theorem childrenOf_mem {u : α} {f g : Forest α} (h : f.childrenOf u = some g) :
    u ∈ f.preorder ∧ ∀ x ∈ g.preorder, x ∈ f.preorder := by
  induction f with
  | nil => cases h
  | node a cs ss ihc ihs =>
    rcases childrenOf_node h with ⟨rfl, rfl⟩ | ⟨-, hc⟩ | ⟨-, hs⟩
    · exact ⟨List.mem_cons_self .., fun x hx => mem_node.mpr (.inr (.inl hx))⟩
    · obtain ⟨hu, hg⟩ := ihc hc
      exact ⟨mem_node.mpr (.inr (.inl hu)), fun x hx => mem_node.mpr (.inr (.inl (hg x hx)))⟩
    · obtain ⟨hu, hg⟩ := ihs hs
      exact ⟨mem_node.mpr (.inr (.inr hu)), fun x hx => mem_node.mpr (.inr (.inr (hg x hx)))⟩

theorem head_not_mem_childrenOf {u a : α} {f g : Forest α} (hn : f.preorder.Nodup)
    (h : f.childrenOf u = some g) (ha : f.head? = some a) : a ∉ g.preorder := by
  cases f with
  | nil => cases ha
  | node b cs ss =>
    cases ha
    obtain ⟨hac, has, -, -, -⟩ := nodup_node.mp hn
    rcases childrenOf_node h with ⟨-, rfl⟩ | ⟨-, hc⟩ | ⟨-, hs⟩
    · exact hac
    · exact fun hx => hac ((childrenOf_mem hc).2 _ hx)
    · exact fun hx => has ((childrenOf_mem hs).2 _ hx)

end Forest

end HaoosLfs
