import HaoosLfs.Lib.Memo

/-!
# Invalidation with flags

Which slots a change clears. The search clears the slots of an item and goes on to the
items that depend on it, but only to those whose flag slot is in the cache.
-/

namespace HaoosLfs.Memo

/-- `dependents` are the items with a slot that asks for a slot of the item. A change of
a `global` item may concern any of the `items`. -/
structure Deps (σ ι : Type) where
  owner : σ → ι
  flag : ι → σ
  items : List ι
  dependents : ι → List ι
  global : ι → Bool
  owner_flag : ∀ i, owner (flag i) = i
  dependents_subset : ∀ i, dependents i ⊆ items

namespace Deps

variable {σ ι : Type} {α : σ → Type} [DecidableEq ι] (d : Deps σ ι)

def clear (i : ι) (c : Cache α) : Cache α := fun s => if d.owner s = i then none else c s

def clearAll (c : Cache α) : Cache α := fun s => if d.owner s ∈ d.items then none else c s

def invalidate : ℕ → ι → Cache α → Option (Cache α)
  | 0, _, _ => none
  | fuel + 1, i, c =>
    if d.global i then some (d.clearAll c)
    else
      (d.dependents i).foldlM
        (fun c j => if (c (d.flag j)).isSome then invalidate fuel j c else some c) (d.clear i c)

/-! ### What is cleared -/

/-- The item is cleared, and so is all that could still hold values made from it. -/
structure Swept (c : Cache α) (j : ι) : Prop where
  item : j ∈ d.items
  cleared : ∀ s, d.owner s = j → c s = none
  dependents : ∀ k ∈ d.dependents j, c (d.flag k) = none
  global : d.global j → ∀ s, d.owner s ∈ d.items → c s = none

def Kept (c c' : Cache α) (j : ι) : Prop := ∀ s, d.owner s = j → c' s = c s

def Sweeps (c c' : Cache α) : Prop := ∀ j, d.Kept c c' j ∨ d.Swept c' j

variable {d} {c c' c'' : Cache α}

omit [DecidableEq ι] in
theorem Sweeps.refl : d.Sweeps c c := fun _ => .inl fun _ _ => rfl

omit [DecidableEq ι] in
theorem Sweeps.kept_or_none (h : d.Sweeps c c') (s : σ) : c' s = c s ∨ c' s = none :=
  (h (d.owner s)).imp (fun hk => hk s rfl) fun hs => hs.cleared s rfl

omit [DecidableEq ι] in
theorem Sweeps.none (h : d.Sweeps c c') {s : σ} (hs : c s = none) : c' s = none := by
  rcases h.kept_or_none s with hk | hn
  · rw [hk, hs]
  · exact hn

omit [DecidableEq ι] in
theorem Swept.mono {j : ι} (hj : d.Swept c j) (h : d.Sweeps c c') : d.Swept c' j where
  item := hj.item
  cleared s hs := h.none (hj.cleared s hs)
  dependents k hk := h.none (hj.dependents k hk)
  global hg s hs := h.none (hj.global hg s hs)

omit [DecidableEq ι] in
theorem Sweeps.trans (h : d.Sweeps c c') (h' : d.Sweeps c' c'') : d.Sweeps c c'' := by
  intro j
  rcases h j with hk | hs
  · rcases h' j with hk' | hs'
    · exact .inl fun s hs => (hk' s hs).trans (hk s hs)
    · exact .inr hs'
  · exact .inr (hs.mono h')

theorem swept_clearAll {j : ι} (hj : j ∈ d.items) : d.Swept (d.clearAll c) j where
  item := hj
  cleared s hs := if_pos (hs ▸ hj)
  dependents k hk := if_pos (by rw [d.owner_flag]; exact d.dependents_subset j hk)
  global _ _ hs := if_pos hs

theorem sweeps_clearAll : d.Sweeps c (d.clearAll c) := by
  intro j
  by_cases hj : j ∈ d.items
  · exact .inr (swept_clearAll hj)
  · exact .inl fun s hs => if_neg (hs ▸ hj)

theorem kept_clear {i j : ι} (h : j ≠ i) : d.Kept c (d.clear i c) j :=
  fun _ hs => if_neg (by rw [hs]; exact h)

theorem sweeps_of_clear {i : ι} (hi : i ∈ d.items) (hg : ¬ d.global i)
    (h : d.Sweeps (d.clear i c) c') (hdep : ∀ k ∈ d.dependents i, c' (d.flag k) = none) :
    d.Sweeps c c' ∧ d.Swept c' i := by
  have hswept : d.Swept c' i :=
    { item := hi
      cleared := fun s hs => h.none (if_pos hs)
      dependents := hdep
      global := fun hg' => absurd hg' hg }
  refine ⟨fun j => ?_, hswept⟩
  by_cases hj : j = i
  · rw [hj]
    exact .inr hswept
  · exact (h j).imp_left fun hk s hs => (hk s hs).trans (kept_clear hj s hs)

omit [DecidableEq ι] in
theorem sweeps_loop {f : ι → Cache α → Option (Cache α)}
    (hf : ∀ j c c', j ∈ d.items → f j c = some c' → d.Sweeps c c' ∧ d.Swept c' j) {l : List ι}
    (hl : l ⊆ d.items)
    (h : l.foldlM (fun c j => if (c (d.flag j)).isSome then f j c else some c) c = some c') :
    d.Sweeps c c' ∧ ∀ k ∈ l, c' (d.flag k) = none := by
  induction l generalizing c with
  | nil =>
    obtain rfl : c = c' := Option.some.inj h
    exact ⟨.refl, nofun⟩
  | cons j l ih =>
    obtain ⟨hj, hl⟩ := List.cons_subset.mp hl
    rw [List.foldlM_cons] at h
    obtain ⟨c1, h1, h2⟩ := Option.bind_eq_some_iff.mp h
    obtain ⟨hs2, hl2⟩ := ih hl h2
    have h1' : d.Sweeps c c1 ∧ c1 (d.flag j) = none := by
      split_ifs at h1 with hflag
      · obtain ⟨hs, hj'⟩ := hf j c c1 hj h1
        exact ⟨hs, hj'.cleared _ (d.owner_flag j)⟩
      · obtain rfl : c = c1 := Option.some.inj h1
        exact ⟨.refl, by simpa using hflag⟩
    refine ⟨h1'.1.trans hs2, fun k hk => ?_⟩
    rcases List.mem_cons.mp hk with rfl | hk
    · exact hs2.none h1'.2
    · exact hl2 k hk

theorem invalidate_sweeps {fuel : ℕ} {i : ι} (hi : i ∈ d.items)
    (h : d.invalidate fuel i c = some c') : d.Sweeps c c' ∧ d.Swept c' i := by
  induction fuel generalizing i c c' with
  | zero => cases h
  | succ fuel ih =>
    rw [invalidate] at h
    split_ifs at h with hg
    · obtain rfl := Option.some.inj h
      exact ⟨sweeps_clearAll, swept_clearAll hi⟩
    · obtain ⟨hs, hl⟩ := sweeps_loop (fun _ _ _ hj => ih hj) (d.dependents_subset i) h
      exact sweeps_of_clear hi hg hs hl

/-! ### The search ends -/

def flagged (d : Deps σ ι) (c : Cache α) : ℕ := d.items.countP fun j => (c (d.flag j)).isSome

omit [DecidableEq ι] in
theorem Sweeps.flagged_le (h : d.Sweeps c c') : d.flagged c' ≤ d.flagged c := by
  refine List.countP_mono_left fun j _ hj => ?_
  rcases h.kept_or_none (d.flag j) with hk | hn
  · rwa [← hk]
  · simp [hn] at hj

theorem isSome_clear {i j : ι} (h : (d.clear i c (d.flag j)).isSome) : (c (d.flag j)).isSome := by
  by_cases hij : j = i
  · simp [clear, d.owner_flag, hij] at h
  · rwa [kept_clear hij _ (d.owner_flag j)] at h

theorem flagged_clear_lt {i : ι} (hi : i ∈ d.items) (h : (c (d.flag i)).isSome) :
    d.flagged (d.clear i c) < d.flagged c := by
  obtain ⟨a, b, hab⟩ := List.append_of_mem hi
  have hle : ∀ l : List ι, l.countP (fun j => (d.clear i c (d.flag j)).isSome) ≤
      l.countP fun j => (c (d.flag j)).isSome :=
    fun l => List.countP_mono_left fun _ _ => isSome_clear
  have hself : (d.clear i c (d.flag i)).isSome = false := by simp [clear, d.owner_flag]
  have ha := hle a
  have hb := hle b
  simp only [flagged, hab, List.countP_append, List.countP_cons, h, hself, if_pos,
    Bool.false_eq_true, if_false]
  omega

theorem loop_isSome {f : ι → Cache α → Option (Cache α)} {n : ℕ}
    (hf : ∀ j c, j ∈ d.items → d.flagged (d.clear j c) < n →
      ∃ c', f j c = some c' ∧ d.Sweeps c c') {l : List ι} (hl : l ⊆ d.items)
    (hc : d.flagged c ≤ n) :
    ∃ c', l.foldlM (fun c j => if (c (d.flag j)).isSome then f j c else some c) c = some c' := by
  induction l generalizing c with
  | nil => exact ⟨c, rfl⟩
  | cons j l ih =>
    obtain ⟨hj, hl⟩ := List.cons_subset.mp hl
    rw [List.foldlM_cons]
    by_cases hflag : (c (d.flag j)).isSome
    · have hlt := flagged_clear_lt hj hflag
      obtain ⟨c1, h1, hs⟩ := hf j c hj (by omega)
      have hle := hs.flagged_le
      obtain ⟨c2, h2⟩ := ih hl (c := c1) (by omega)
      exact ⟨c2, by rw [if_pos hflag, h1]; exact h2⟩
    · obtain ⟨c2, h2⟩ := ih hl hc
      exact ⟨c2, by rw [if_neg hflag]; exact h2⟩

theorem invalidate_isSome {fuel : ℕ} {i : ι} (hi : i ∈ d.items)
    (hfuel : d.flagged (d.clear i c) < fuel) : ∃ c', d.invalidate fuel i c = some c' := by
  induction fuel generalizing i c with
  | zero => omega
  | succ fuel ih =>
    rw [invalidate]
    split_ifs with hg
    · exact ⟨_, rfl⟩
    · refine loop_isSome (n := fuel) ?_ (d.dependents_subset i) (by omega)
      intro j c hj hlt
      obtain ⟨c', h⟩ := ih hj hlt
      exact ⟨c', h, (invalidate_sweeps hj h).1⟩

omit [DecidableEq ι] in
theorem flagged_le_length : d.flagged c ≤ d.items.length := List.countP_le_length

/-! ### The cache stays right -/

/-- What the computations may ask for is covered by the dependencies, and an item with
anything in a settled cache has its flag there, unless the value never changes. -/
structure Tracks (d : Deps σ ι) (comp : (s : σ) → Comp α (α s)) : Prop where
  reads : ∀ s t, (comp s).MayRead t → d.owner t ∉ d.items ∨ d.owner t = d.owner s ∨
    d.owner s ∈ d.dependents (d.owner t) ∨ d.global (d.owner t) ∧ d.owner s ∈ d.items
  flags : ∀ c, Settled comp c → ∀ s a, c s = some a → d.owner s ∈ d.items →
    (c (d.flag (d.owner s))).isSome ∨ comp s = .ret a

variable {comp comp' : (s : σ) → Comp α (α s)}

omit [DecidableEq ι] in
theorem Tracks.kept_reads (ht : d.Tracks comp) (hc : Settled comp c) (h : d.Sweeps c c') {s t : σ}
    {a : α s} (hs : c' s = some a) (hread : (comp s).MayRead t) : c' t = c t := by
  have hkept : d.Kept c c' (d.owner s) := by
    rcases h (d.owner s) with hk | hsw
    · exact hk
    · rw [hsw.cleared s rfl] at hs
      cases hs
  rcases h (d.owner t) with hk | hsw
  · exact hk t rfl
  · exfalso
    rcases ht.reads s t hread with hitem | howner | hdep | ⟨hg, hitem⟩
    · exact hitem hsw.item
    · rw [hsw.cleared s howner.symm] at hs
      cases hs
    · have hflag := hsw.dependents _ hdep
      rw [hkept _ (d.owner_flag _)] at hflag
      have hitem := d.dependents_subset _ hdep
      rcases ht.flags c hc s a ((hkept s rfl).symm.trans hs) hitem with hsome | hret
      · rw [hflag] at hsome
        cases hsome
      · rw [hret] at hread
        exact hread
    · rw [hsw.global hg s hitem] at hs
      cases hs

omit [DecidableEq ι] in
/-- After a sweep the cache is settled for the old computations; where the new ones
replay to the same values, for the new ones. -/
theorem Tracks.settled (ht : d.Tracks comp) (hc : Settled comp c) (h : d.Sweeps c c')
    (hchange : ∀ s a, c' s = some a → (comp s).replay c' = some a →
      (comp' s).replay c' = some a) : Settled comp' c' := by
  intro s a hs
  have hcs : c s = some a := by
    rcases h.kept_or_none s with hk | hn
    · rw [← hk, hs]
    · rw [hn] at hs
      cases hs
  refine hchange s a hs (Comp.replay_mono (hc s a hcs) fun t hread b hb => ?_)
  rw [ht.kept_reads hc h hs hread, hb]

end Deps

end HaoosLfs.Memo
