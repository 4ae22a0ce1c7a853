import HaoosLfs.Lib.Forest

/-!
# Linked trees

Nodes that store a parent, a first child and a next sibling. `Holds` says that
a sibling chain stores an ordered forest; the chain then determines the forest,
no node occurs in it twice, and its nodes are the descendants of the parent.
-/

namespace HaoosLfs

/-- The three links of a node; `none` is the null pointer. -/
structure Links (ι : Type) where
  parent : ι → Option ι
  children : ι → Option ι
  next : ι → Option ι

namespace Links
variable {ι : Type} (l : Links ι)

/-- The sibling chain starting at `o`, under the parent `p`, stores the forest. -/
def Holds : ι → Option ι → Forest ι → Prop
  | _, o, .nil => o = none
  | p, o, .node v cs ss =>
    o = some v ∧ l.parent v = some p ∧ Holds v (l.children v) cs ∧ Holds p (l.next v) ss

inductive Child : ι → ι → Prop
  | first {a b : ι} : l.children a = some b → Child a b
  | next {a b c : ι} : Child a b → l.next b = some c → Child a c

def Descendant : ι → ι → Prop := Relation.TransGen l.Child

variable {l} {p : ι} {o : Option ι} {f : Forest ι}

theorem Holds.head (h : l.Holds p o f) : o = f.head? := by
  cases f with
  | nil => exact h
  | node v cs ss => exact h.1

theorem Holds.unique {q : ι} {g : Forest ι} (hf : l.Holds p o f) (hg : l.Holds q o g) : f = g := by
  induction f generalizing p q o g with
  | nil =>
    cases g with
    | nil => rfl
    | node w ds ts =>
      have h1 : o = none := hf
      have h2 : o = some w := hg.1
      rw [h1] at h2
      cases h2
  | node v cs ss ihc ihs =>
    cases g with
    | nil =>
      have h1 : o = some v := hf.1
      have h2 : o = none := hg
      rw [h1] at h2
      cases h2
    | node w ds ts =>
      obtain ⟨hov, -, hcs, hss⟩ := hf
      obtain ⟨how, -, hds, hts⟩ := hg
      have hvw : v = w := Option.some.inj (hov.symm.trans how)
      subst hvw
      rw [ihc hcs hds, ihs hss hts]

theorem Holds.below (h : l.Holds p o f) {x : ι} (hx : x ∈ f.preorder) :
    ∃ g, l.Holds x (l.children x) g ∧ g.size < f.size ∧ ∀ y ∈ g.preorder, y ∈ f.preorder := by
  induction f generalizing p o with
  | nil => cases hx
  | node v cs ss ihc ihs =>
    obtain ⟨-, -, hcs, hss⟩ := h
    rcases Forest.mem_node.mp hx with rfl | hc | hs
    · refine ⟨cs, hcs, ?_, fun y hy => Forest.mem_node.mpr (.inr (.inl hy))⟩
      simp only [Forest.size]
      omega
    · obtain ⟨g, hg, hlt, hsub⟩ := ihc hcs hc
      refine ⟨g, hg, ?_, fun y hy => Forest.mem_node.mpr (.inr (.inl (hsub y hy)))⟩
      simp only [Forest.size]
      omega
    · obtain ⟨g, hg, hlt, hsub⟩ := ihs hss hs
      refine ⟨g, hg, ?_, fun y hy => Forest.mem_node.mpr (.inr (.inr (hsub y hy)))⟩
      simp only [Forest.size]
      omega

theorem Holds.not_mem_self (h : l.Holds p (l.children p) f) : p ∉ f.preorder := by
  intro hp
  obtain ⟨g, hg, hlt, -⟩ := h.below hp
  have he := h.unique hg
  rw [he] at hlt
  exact lt_irrefl _ hlt

theorem Holds.parent_mem (h : l.Holds p o f) {x : ι} (hx : x ∈ f.preorder) :
    ∃ q, l.parent x = some q ∧ (q = p ∨ q ∈ f.preorder) := by
  induction f generalizing p o with
  | nil => cases hx
  | node v cs ss ihc ihs =>
    obtain ⟨-, hpv, hcs, hss⟩ := h
    rcases Forest.mem_node.mp hx with rfl | hc | hs
    · exact ⟨p, hpv, .inl rfl⟩
    · obtain ⟨q, hq, hqm⟩ := ihc hcs hc
      rcases hqm with rfl | hqm
      · exact ⟨q, hq, .inr (List.mem_cons_self ..)⟩
      · exact ⟨q, hq, .inr (Forest.mem_node.mpr (.inr (.inl hqm)))⟩
    · obtain ⟨q, hq, hqm⟩ := ihs hss hs
      exact ⟨q, hq, hqm.imp id fun hm => Forest.mem_node.mpr (.inr (.inr hm))⟩

/-- Parents lead from a stored node up to `p`, so a set of nodes that is closed
under parents and misses `p` and the parent of the chain misses the forest. -/
theorem Holds.disjoint_of_closed {q : ι} {s : List ι}
    (hs : ∀ x ∈ s, ∃ y, l.parent x = some y ∧ (y = p ∨ y ∈ s))
    (h : l.Holds q o f) (hqs : q ∉ s) (hqp : q ≠ p) (hpf : p ∉ f.preorder) :
    ∀ x ∈ f.preorder, x ∉ s := by
  induction f generalizing q o with
  | nil =>
    intro x hx
    cases hx
  | node v cs ss ihc ihs =>
    obtain ⟨-, hpv, hcs, hss⟩ := h
    have hvs : v ∉ s := by
      intro hv
      obtain ⟨y, hy, hym⟩ := hs v hv
      have hyq : y = q := Option.some.inj (hy.symm.trans hpv)
      rw [hyq] at hym
      exact hym.elim hqp hqs
    have hvp : v ≠ p := fun e => hpf (e ▸ List.mem_cons_self ..)
    intro x hx
    rcases Forest.mem_node.mp hx with rfl | hc | hsx
    · exact hvs
    · exact ihc hcs hvs hvp (fun hm => hpf (Forest.mem_node.mpr (.inr (.inl hm)))) x hc
    · exact ihs hss hqs hqp (fun hm => hpf (Forest.mem_node.mpr (.inr (.inr hm)))) x hsx

theorem Holds.sibling (h : l.Holds p o f) {x : ι} (hx : x ∈ f.preorder)
    (hp : l.parent x = some p) (hpf : p ∉ f.preorder) :
    ∃ g, l.Holds p (l.next x) g ∧ g.size < f.size := by
  induction f generalizing o with
  | nil => cases hx
  | node v cs ss ihc ihs =>
    obtain ⟨-, -, hcs, hss⟩ := h
    rcases Forest.mem_node.mp hx with rfl | hc | hsx
    · refine ⟨ss, hss, ?_⟩
      simp only [Forest.size]
      omega
    · -- below `v` the parent of `x` is a stored node, and `p` is none
      obtain ⟨q, hq, hqm⟩ := hcs.parent_mem hc
      have hqp : q = p := Option.some.inj (hq.symm.trans hp)
      rw [hqp] at hqm
      refine absurd ?_ hpf
      rcases hqm with rfl | hqm
      · exact List.mem_cons_self ..
      · exact Forest.mem_node.mpr (.inr (.inl hqm))
    · obtain ⟨g, hg, hlt⟩ := ihs hss hsx (fun hm => hpf (Forest.mem_node.mpr (.inr (.inr hm))))
      refine ⟨g, hg, ?_⟩
      simp only [Forest.size]
      omega

theorem Holds.nodup (h : l.Holds p o f) (hpf : p ∉ f.preorder) : f.preorder.Nodup := by
  induction f generalizing p o with
  | nil => exact List.nodup_nil
  | node v cs ss ihc ihs =>
    obtain ⟨-, hpv, hcs, hss⟩ := h
    have hvc : v ∉ cs.preorder := hcs.not_mem_self
    have hps : p ∉ ss.preorder := fun hm => hpf (Forest.mem_node.mpr (.inr (.inr hm)))
    have hpc : p ∉ cs.preorder := fun hm => hpf (Forest.mem_node.mpr (.inr (.inl hm)))
    have hvp : v ≠ p := fun e => hpf (e ▸ List.mem_cons_self ..)
    have hvs : v ∉ ss.preorder := by
      intro hv
      obtain ⟨g, hg, hlt⟩ := hss.sibling hv hpv hps
      have he := hss.unique hg
      rw [he] at hlt
      exact lt_irrefl _ hlt
    refine Forest.nodup_node.mpr ⟨hvc, hvs, ihc hcs hvc, ihs hss hps, ?_⟩
    exact hcs.disjoint_of_closed (fun x hx => hss.parent_mem hx) hvs hvp hpc

theorem Holds.descendant_of_mem {r : ι} (h : l.Holds p o f)
    (ho : ∀ v, o = some v → l.Child p v) (hr : r = p ∨ l.Descendant r p) :
    ∀ x ∈ f.preorder, l.Descendant r x := by
  induction f generalizing p o with
  | nil =>
    intro x hx
    cases hx
  | node v cs ss ihc ihs =>
    obtain ⟨hov, -, hcs, hss⟩ := h
    have hv : l.Child p v := ho v hov
    have hrv : l.Descendant r v := by
      rcases hr with rfl | hr
      · exact Relation.TransGen.single hv
      · exact Relation.TransGen.tail hr hv
    intro x hx
    rcases Forest.mem_node.mp hx with rfl | hc | hsx
    · exact hrv
    · exact ihc hcs (fun w hw => .first hw) (.inr hrv) x hc
    · exact ihs hss (fun w hw => .next hv hw) hr x hsx

theorem Holds.mem_of_child {a b : ι} (hab : l.Child a b) :
    ∀ {g : Forest ι}, l.Holds a (l.children a) g →
      b ∈ g.preorder ∧ ∃ k, l.Holds a (l.next b) k ∧ ∀ y ∈ k.preorder, y ∈ g.preorder := by
  induction hab with
  | first hfirst =>
    intro g hg
    cases g with
    | nil =>
      have h2 := hg.head
      rw [hfirst] at h2
      cases h2
    | node v cs ss =>
      obtain ⟨hov, -, -, hss⟩ := hg
      have hvb := Option.some.inj (hov.symm.trans hfirst)
      subst hvb
      exact ⟨List.mem_cons_self .., ss, hss, fun y hy => Forest.mem_node.mpr (.inr (.inr hy))⟩
  | next _ hnext ih =>
    intro g hg
    obtain ⟨-, k, hk, hsub⟩ := ih hg
    cases k with
    | nil =>
      have h2 := hk.head
      rw [hnext] at h2
      cases h2
    | node v cs ss =>
      obtain ⟨hov, -, -, hss⟩ := hk
      have hvb := Option.some.inj (hov.symm.trans hnext)
      subst hvb
      exact ⟨hsub _ (List.mem_cons_self ..), ss, hss,
        fun y hy => hsub y (Forest.mem_node.mpr (.inr (.inr hy)))⟩

theorem Holds.mem_iff_descendant (h : l.Holds p (l.children p) f) (x : ι) :
    x ∈ f.preorder ↔ l.Descendant p x := by
  constructor
  · exact fun hx => h.descendant_of_mem (fun v hv => .first hv) (.inl rfl) x hx
  · intro hx
    induction hx with
    | single hc => exact (Holds.mem_of_child hc h).1
    | tail _ hc ih =>
      obtain ⟨g, hg, -, hsub⟩ := h.below ih
      exact hsub _ (Holds.mem_of_child hc hg).1

theorem Holds.childrenOf [DecidableEq ι] (h : l.Holds p o f) {u : ι} {g : Forest ι}
    (hu : f.childrenOf u = some g) : l.Holds u (l.children u) g := by
  induction f generalizing p o with
  | nil => cases hu
  | node v cs ss ihc ihs =>
    obtain ⟨-, -, hcs, hss⟩ := h
    rcases Forest.childrenOf_node hu with ⟨rfl, rfl⟩ | ⟨-, hc⟩ | ⟨-, hs⟩
    · exact hcs
    · exact ihc hcs hc
    · exact ihs hss hs

theorem Holds.subtrees (h : l.Holds p o f) {t : ι × Forest ι} (ht : t ∈ f.subtrees) :
    l.Holds t.1 (l.children t.1) t.2 := by
  induction f generalizing p o with
  | nil => cases ht
  | node v cs ss ihc ihs =>
    obtain ⟨-, -, hcs, hss⟩ := h
    rcases List.mem_cons.mp ht with rfl | ht
    · exact hcs
    · rcases List.mem_append.mp ht with hc | hs
      · exact ihc hcs hc
      · exact ihs hss hs

theorem Holds.parent_of_root (h : l.Holds p o f) {x : ι} (hx : x ∈ f.roots) :
    l.parent x = some p := by
  induction f generalizing o with
  | nil => cases hx
  | node v cs ss _ ihs =>
    obtain ⟨-, hpv, -, hss⟩ := h
    rcases List.mem_cons.mp hx with rfl | hx
    · exact hpv
    · exact ihs hss hx

theorem Holds.parent_of_first (h : l.Holds p o f) {x y : ι} (hx : x ∈ f.preorder)
    (hy : l.children x = some y) : l.parent y = some x := by
  obtain ⟨g, hg, -, -⟩ := h.below hx
  cases g with
  | nil =>
    have hnone : l.children x = none := hg
    rw [hnone] at hy
    cases hy
  | node v cs ss =>
    obtain ⟨hv, hpar, -, -⟩ := hg
    obtain rfl := Option.some.inj (hv.symm.trans hy)
    exact hpar

/-! ### Output produced next to a node

`Near l g`: what `g` produces at a node are the node's first child and its next
sibling at most. -/

def Near (l : Links ι) (g : ι → List ι) : Prop :=
  ∀ v, ∀ x ∈ g v, l.children v = some x ∨ l.next v = some x

theorem Holds.near_mem {g : ι → List ι} (hg : Near l g) (h : l.Holds p o f) :
    ∀ x ∈ f.preorder.flatMap g, x ∈ f.preorder := by
  induction f generalizing p o with
  | nil =>
    intro x hx
    cases hx
  | node v cs ss ihc ihs =>
    obtain ⟨-, -, hcs, hss⟩ := h
    intro x hx
    rw [Forest.preorder_node, List.flatMap_cons, List.flatMap_append, List.mem_append,
      List.mem_append] at hx
    rcases hx with hv | hc | hs
    · rcases hg v x hv with hx | hx
      · exact Forest.mem_node.mpr (.inr (.inl (Forest.head?_mem (hcs.head.symm.trans hx))))
      · exact Forest.mem_node.mpr (.inr (.inr (Forest.head?_mem (hss.head.symm.trans hx))))
    · exact Forest.mem_node.mpr (.inr (.inl (ihc hcs x hc)))
    · exact Forest.mem_node.mpr (.inr (.inr (ihs hss x hs)))

/-- Of all that is produced in document order, what lies below `u` is produced
at `u` and below `u`. -/
theorem Holds.filter_near [DecidableEq ι] {g : ι → List ι} (hg : Near l g) {u : ι}
    {k : Forest ι} (hgu : ∀ x ∈ g u, l.children u = some x) (h : l.Holds p o f)
    (hn : f.preorder.Nodup) (hu : f.childrenOf u = some k) :
    (f.preorder.flatMap g).filter (fun x => decide (x ∈ k.preorder)) =
      g u ++ k.preorder.flatMap g := by
  have keep : ∀ {xs : List ι}, (∀ x ∈ xs, x ∈ k.preorder) →
      xs.filter (fun x => decide (x ∈ k.preorder)) = xs := by
    intro xs hxs
    exact List.filter_eq_self.mpr fun x hx => decide_eq_true (hxs x hx)
  have drop : ∀ {xs : List ι}, (∀ x ∈ xs, x ∉ k.preorder) →
      xs.filter (fun x => decide (x ∈ k.preorder)) = [] := by
    intro xs hxs
    exact List.filter_eq_nil_iff.mpr fun x hx => by simpa using hxs x hx
  induction f generalizing p o with
  | nil => cases hu
  | node v cs ss ihc ihs =>
    obtain ⟨-, -, hcs, hss⟩ := h
    obtain ⟨-, -, hnc, hns, hd⟩ := Forest.nodup_node.mp hn
    rw [Forest.preorder_node, List.flatMap_cons, List.flatMap_append, List.filter_append,
      List.filter_append]
    rcases Forest.childrenOf_node hu with ⟨rfl, rfl⟩ | ⟨-, hc⟩ | ⟨-, hs⟩
    · have hv : ∀ x ∈ g v, x ∈ cs.preorder := fun x hx =>
        Forest.head?_mem (hcs.head.symm.trans (hgu x hx))
      rw [keep hv, keep (hcs.near_mem hg),
        drop fun x hx hm => hd x hm (hss.near_mem hg x hx), List.append_nil]
    · have hsub := (Forest.childrenOf_mem hc).2
      have hv : ∀ x ∈ g v, x ∉ k.preorder := by
        intro x hx hm
        rcases hg v x hx with hx | hx
        · exact Forest.head_not_mem_childrenOf hnc hc (hcs.head.symm.trans hx) hm
        · exact hd x (hsub x hm) (Forest.head?_mem (hss.head.symm.trans hx))
      rw [drop hv, drop fun x hx hm => hd x (hsub x hm) (hss.near_mem hg x hx), ihc hcs hnc hc,
        List.append_nil, List.nil_append]
    · have hsub := (Forest.childrenOf_mem hs).2
      have hv : ∀ x ∈ g v, x ∉ k.preorder := by
        intro x hx hm
        rcases hg v x hx with hx | hx
        · exact hd x (Forest.head?_mem (hcs.head.symm.trans hx)) (hsub x hm)
        · exact Forest.head_not_mem_childrenOf hns hs (hss.head.symm.trans hx) hm
      rw [drop hv, drop fun x hx hm => hd x (hcs.near_mem hg x hx) (hsub x hm), ihs hss hns hs,
        List.nil_append, List.nil_append]

end Links

end HaoosLfs
