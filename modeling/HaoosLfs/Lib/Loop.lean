import Mathlib

/-!
# Loops in a finite graph

A depth-first search that gives up at the first node it meets again on its own
path. It ends well exactly when no node leads back to itself.
-/

namespace HaoosLfs.Loop

variable {α : Type} [DecidableEq α] (succ : α → List α)

/-- The nodes that were searched to the end once `x` is, or nothing when a loop was
found. `path` are the nodes whose search is under way; `fuel` bounds its depth. -/
def visit : ℕ → List α → List α → α → Option (List α)
  | 0, _, _, _ => none
  | fuel + 1, path, done, x =>
    if x ∈ done then some done
    else if x ∈ path then none
    else ((succ x).foldlM (visit fuel (x :: path)) done).map fun d => x :: d

def loopFree (nodes : List α) : Bool :=
  (nodes.foldlM (visit succ (nodes.length + 1) []) []).isSome

/-- `b` comes directly after `a`. -/
def Leads (a b : α) : Prop := b ∈ succ a

section

variable {succ}

omit [DecidableEq α] in
theorem foldlM_none {f : List α → α → Option (List α)} {xs : List α} {d : List α}
    (h : xs.foldlM f d = none) : ∃ x ∈ xs, ∃ d', f d' x = none := by
  induction xs generalizing d with
  | nil => cases h
  | cons x xs ih =>
    rw [List.foldlM_cons] at h
    cases hx : f d x with
    | none => exact ⟨x, List.mem_cons_self, d, hx⟩
    | some d' =>
      rw [hx] at h
      obtain ⟨y, hy, hnone⟩ := ih h
      exact ⟨y, List.mem_cons_of_mem _ hy, hnone⟩

omit [DecidableEq α] in
theorem foldlM_some {f : List α → α → Option (List α)} {P : List α → Prop}
    (hf : ∀ d x d', P d → f d x = some d' → P d' ∧ x ∈ d' ∧ d ⊆ d') {xs d d' : List α}
    (hd : P d) (h : xs.foldlM f d = some d') : P d' ∧ xs ⊆ d' ∧ d ⊆ d' := by
  induction xs generalizing d with
  | nil =>
    obtain rfl : d = d' := Option.some.inj h
    exact ⟨hd, List.nil_subset _, fun y hy => hy⟩
  | cons x xs ih =>
    rw [List.foldlM_cons] at h
    cases hx : f d x with
    | none =>
      rw [hx] at h
      cases h
    | some e =>
      rw [hx] at h
      obtain ⟨he, hxe, hde⟩ := hf d x e hd hx
      obtain ⟨hd', hxs, hed⟩ := ih he h
      exact ⟨hd', List.cons_subset.mpr ⟨hed hxe, hxs⟩, fun y hy => hed (hde hy)⟩

theorem visit_acc {fuel : ℕ} {path done done' : List α} {x : α}
    (hd : ∀ y ∈ done, Acc (fun b a => Leads succ a b) y)
    (h : visit succ fuel path done x = some done') :
    (∀ y ∈ done', Acc (fun b a => Leads succ a b) y) ∧ x ∈ done' ∧ done ⊆ done' := by
  induction fuel generalizing path done done' x with
  | zero => cases h
  | succ fuel ih =>
    rw [visit] at h
    split_ifs at h with hx hp
    · obtain rfl : done = done' := Option.some.inj h
      exact ⟨hd, hx, fun y hy => hy⟩
    · obtain ⟨d, hfold, rfl⟩ := Option.map_eq_some_iff.mp h
      obtain ⟨hacc, hsucc, hsub⟩ := foldlM_some (fun _ _ _ => ih) hd hfold
      refine ⟨fun y hy => ?_, List.mem_cons_self, fun y hy => List.mem_cons_of_mem _ (hsub hy)⟩
      rcases List.mem_cons.mp hy with rfl | hy
      · exact ⟨_, fun z hz => hacc z (hsucc hz)⟩
      · exact hacc y hy

/-- A search that was given up has met a loop: every node on the path leads to `x`,
and the path is too short to have used up the fuel. -/
theorem visit_none {nodes : List α} (hclosed : ∀ x, succ x ⊆ nodes) {fuel : ℕ}
    {path done : List α} {x : α} (hpath : ∀ p ∈ path, Relation.TransGen (Leads succ) p x)
    (hnodup : path.Nodup) (hsub : path ⊆ nodes) (hx : x ∈ nodes)
    (hfuel : nodes.length < fuel + path.length) (h : visit succ fuel path done x = none) :
    ∃ y ∈ nodes, Relation.TransGen (Leads succ) y y := by
  induction fuel generalizing path done x with
  | zero =>
    have := (List.subperm_of_subset hnodup hsub).length_le
    omega
  | succ fuel ih =>
    rw [visit] at h
    split_ifs at h with hd hp
    · exact ⟨x, hx, hpath x hp⟩
    · obtain ⟨z, hz, d, hnone⟩ := foldlM_none (Option.map_eq_none_iff.mp h)
      refine ih ?_ (List.nodup_cons.mpr ⟨hp, hnodup⟩) (List.cons_subset.mpr ⟨hx, hsub⟩)
        (hclosed x hz) (by simp only [List.length_cons]; omega) hnone
      intro p hpp
      rcases List.mem_cons.mp hpp with rfl | hpp
      · exact .single hz
      · exact (hpath p hpp).tail hz

theorem loopFree_iff {nodes : List α} (hclosed : ∀ x, succ x ⊆ nodes) :
    loopFree succ nodes ↔ ∀ x ∈ nodes, ¬ Relation.TransGen (Leads succ) x x := by
  unfold loopFree
  cases h : nodes.foldlM (visit succ (nodes.length + 1) []) [] with
  | none =>
    obtain ⟨x, hx, d, hnone⟩ := foldlM_none h
    obtain ⟨y, hy, hloop⟩ := visit_none hclosed (by simp) (by simp) (by simp) hx (by simp) hnone
    simp only [Option.isSome_none, Bool.false_eq_true, false_iff, not_forall, not_not]
    exact ⟨y, hy, hloop⟩
  | some d =>
    obtain ⟨hacc, hsub, -⟩ := foldlM_some (fun _ _ _ => visit_acc) (by simp) h
    simp only [Option.isSome_some, true_iff]
    intro x hx hloop
    have hirr : ∀ y, Acc (Relation.TransGen fun b a => Leads succ a b) y →
        ¬ Relation.TransGen (fun b a => Leads succ a b) y y := by
      intro y hy
      induction hy with
      | intro y _ ih => exact fun hloop => ih y hloop hloop
    exact hirr x (hacc x (hsub hx)).transGen (Relation.transGen_swap.mpr hloop)

end

end HaoosLfs.Loop
