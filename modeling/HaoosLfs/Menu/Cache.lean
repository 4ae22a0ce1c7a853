import HaoosLfs.Menu.Inputs

/-!
# The caches stay right (`kconfiglib.py:4415-4560, 4690-4745, 5052-5105, 5255-5270`)

`set_value` and `unset_value` change user values and invalidate what `_dependents`
leads to, as far as `_cached_vis` says that something is cached.
-/

namespace HaoosLfs.Menu
open Memo

def validValue (type : SymbolType) (v : UserValue) : Option UserValue :=
  match type, v with
  | .bool, .tri 0 | .bool, .tri 2 | .tristate, .tri 0 | .tristate, .tri 1 | .tristate, .tri 2 =>
    some v
  | .bool, .str ['n'] | .tristate, .str ['n'] => some (.tri 0)
  | .tristate, .str ['m'] => some (.tri 1)
  | .bool, .str ['y'] | .tristate, .str ['y'] => some (.tri 2)
  | .string, .str _ => some v
  | .int, .str s => if PyInt.isBaseN s 10 then some v else none
  | .hex, .str s => if (PyInt.parseInt 16 s).any (0 ≤ ·) then some v else none
  | _, _ => none

theorem validValue_idem {type : SymbolType} {v w : UserValue} (h : validValue type v = some w) :
    validValue type w = some w := by
  unfold validValue at h
  split at h
  any_goals
    obtain rfl := Option.some.inj h
    rfl
  · split_ifs at h with hs
    obtain rfl := Option.some.inj h
    exact if_pos hs
  · split_ifs at h with hs
    obtain rfl := Option.some.inj h
    exact if_pos hs
  · cases h

/-- Only symbols of a choice are selected in it, only choices have a mode, and user values
are of the type of their symbol. -/
structure Inputs.Valid (k : Kconfig) (u : Inputs) : Prop where
  selection : ∀ i s, u.userSelection i = some s → s ∈ (k.choice i).syms
  mode : ∀ i v, u.mode i = some v → .choice i ∈ k.items
  value : ∀ name v, u.userValue name = some v → validValue (k.symbol name).origType v = some v

/-! ### What is defined -/

section

variable {k : Kconfig} {level : Item → ℕ} {u : Inputs}

theorem mem_items_sym {name : Text} :
    Item.sym (.var name) ∈ k.items ↔ name ∈ k.syms.map Prod.fst := by
  simp [Kconfig.items]

theorem mem_items_choice {i : ℕ} : Item.choice i ∈ k.items ↔ i < k.choices.length := by
  simp [Kconfig.items]

theorem const_not_mem_items {name : Text} : Item.sym (.const name) ∉ k.items := by
  simp [Kconfig.items]

theorem symbol_of_not_mem {name : Text} (h : Item.sym (.var name) ∉ k.items) :
    k.symbol name = undefinedSymbol := by
  have hnone : k.syms.lookup name = none := by
    rw [List.lookup_eq_none_iff]
    intro s hs
    rw [bne_iff_ne]
    rintro rfl
    exact h (mem_items_sym.mpr (List.mem_map_of_mem hs))
  rw [Kconfig.symbol, hnone, Option.getD_none]

theorem choice_of_not_mem {i : ℕ} (h : Item.choice i ∉ k.items) : k.choice i = noChoice := by
  rw [mem_items_choice, not_lt] at h
  rw [Kconfig.choice, List.getD_eq_getElem?_getD, List.getElem?_eq_none h, Option.getD_none]

theorem mem_items_of_depends {x y : Item} (h : y ∈ k.depends x) :
    x ∈ k.items ∨ y = .sym (.const "n".toList) := by
  by_cases hx : x ∈ k.items
  · exact .inl hx
  · right
    cases x with
    | sym s =>
      cases s with
      | var name =>
        rw [Kconfig.depends, symbol_of_not_mem hx] at h
        simpa [undefinedSymbol, Symbol.depends, Expr.n, Expr.const, exprItems] using h
      | const name => cases h
    | choice i =>
      rw [Kconfig.depends, choice_of_not_mem hx] at h
      simp [noChoice, Choice.depends] at h

theorem mem_dependents {x y : Item} :
    y ∈ k.dependents x ↔ y ∈ k.items ∧ (x ∈ k.depends y ∨ k.inChoice y x) := by
  simp [Kconfig.dependents]

theorem mem_items_of_member {i : ℕ} {name : Text} (h : name ∈ (k.choice i).syms) :
    Item.choice i ∈ k.items := by
  by_contra hi
  rw [choice_of_not_mem hi] at h
  cases h

theorem mem_items_of_choice {i : ℕ} {name : Text} (h : (k.symbol name).choice = some i) :
    Item.sym (.var name) ∈ k.items := by
  by_contra hn
  rw [symbol_of_not_mem hn] at h
  cases h

/-! ### Everything that is asked for is below and recorded -/

def Covered (k : Kconfig) (x y : Item) : Prop :=
  y = x ∨ y ∈ k.depends x ∨ (y = .sym (.var k.modules) ∧ x ∈ k.items) ∨ k.inChoice x y

def Below (k : Kconfig) (level : Item → ℕ) (x : Item) (n : ℕ) (t : Slot) : Prop :=
  Covered k x (owner t) ∧ rank level t < n

theorem itemWithin_of_depends (hl : Layered k level) {x y : Item} {n : ℕ} (hy : y ∈ k.depends x)
    (hlt : level y < level x ∨ ∃ i, y = .choice i ∧ level y = level x)
    (hn : 6 * level x < n) : ItemWithin k (Below k level x n) y := by
  have hcov : Covered k x y := .inr (.inl hy)
  cases y with
  | sym s =>
    have hlevel : level (.sym s) < level x := by
      rcases hlt with h | ⟨i, h, -⟩
      · exact h
      · cases h
    refine ⟨⟨hcov, ?_⟩, hcov, ?_⟩
    · simp only [rank, owner, slotRank]
      omega
    · simp only [rank, owner, slotRank]
      omega
  | choice i =>
    have hlevel : level (.choice i) ≤ level x := by
      rcases hlt with h | ⟨j, -, h⟩
      · exact h.le
      · exact h.le
    refine ⟨⟨hcov, ?_⟩, fun ht => ⟨.inr (.inr (.inl ⟨rfl, ?_⟩)), ?_⟩⟩
    · simp only [rank, owner, slotRank]
      omega
    · rcases mem_items_of_depends hy with hx | hc
      · exact hx
      · cases hc
    · have := hl.choiceModules i ht
      simp only [rank, owner, slotRank]
      omega

theorem symbolWithin (hk : WellFormed k) (hl : Layered k level) (name : Text) {n : ℕ}
    (hn : 6 * level (.sym (.var name)) < n) :
    SymbolWithin k (Below k level (.sym (.var name)) n) (k.symbol name) := by
  have hdep : ∀ x ∈ (k.symbol name).depends,
      ItemWithin k (Below k level (.sym (.var name)) n) x := by
    intro x hx
    refine itemWithin_of_depends hl hx ?_ hn
    rcases hl.symbol name x hx with h | ⟨i, rfl, hc⟩
    · exact .inl h
    · exact .inr ⟨i, rfl, (hl.member name i hc).symm⟩
  refine ⟨hdep, fun i hc => hdep _ ?_, fun ht => ⟨.inr (.inr (.inl ⟨rfl, ?_⟩)), ?_⟩⟩
  · exact List.mem_append_right _ (hk.choice_dep name i hc)
  · by_contra hitem
    rw [symbol_of_not_mem hitem] at ht
    cases ht
  · have := hl.symbolModules name ht
    simp only [rank, owner, slotRank]
    omega

theorem choice_depends_within (hl : Layered k level) (i : ℕ) {n : ℕ}
    (hn : 6 * level (.choice i) ≤ n) :
    ∀ x ∈ (k.choice i).depends, ItemWithin k (Below k level (.choice i) n) x := by
  intro x hx
  have hlt := hl.choice i x hx
  cases x with
  | sym s =>
    refine ⟨⟨.inr (.inl hx), ?_⟩, .inr (.inl hx), ?_⟩
    · simp only [rank, owner, slotRank]
      omega
    · simp only [rank, owner, slotRank]
      omega
  | choice j =>
    refine ⟨⟨.inr (.inl hx), ?_⟩, fun ht => ⟨.inr (.inr (.inl ⟨rfl, ?_⟩)), ?_⟩⟩
    · simp only [rank, owner, slotRank]
      omega
    · rcases mem_items_of_depends (x := .choice i) hx with hi | hc
      · exact hi
      · cases hc
    · have := hl.choiceModules j ht
      simp only [rank, owner, slotRank]
      omega

theorem choice_modules (hl : Layered k level) (i : ℕ) {n : ℕ} (hn : 6 * level (.choice i) ≤ n)
    (ht : (k.choice i).origType = .tristate) :
    Below k level (.choice i) n (.tri (.var k.modules)) := by
  have hlt := hl.choiceModules i ht
  refine ⟨.inr (.inr (.inl ⟨rfl, ?_⟩)), ?_⟩
  · by_contra hi
    rw [choice_of_not_mem hi] at ht
    cases ht
  · simp only [rank, owner, slotRank]
    omega

theorem triValue_within (hk : WellFormed k) (hl : Layered k level) (s : Sym) :
    (triValue k u s).Within (Below k level (.sym s) (rank level (.tri s))) := by
  cases s with
  | const name => exact Comp.within_pure
  | var name =>
    have hw := symbolWithin hk hl name (n := rank level (.tri (.var name)))
      (by simp only [rank, owner, slotRank]; omega)
    have hvis : Below k level (.sym (.var name)) (rank level (.tri (.var name)))
        (.vis (.sym (.var name))) :=
      ⟨.inl rfl, by simp [rank, owner, slotRank]⟩
    simp only [triValue]
    split_ifs
    · split
      · exact hw.plainTri hvis
      · rename_i i hc
        refine choiceSymbolTri_within hvis ⟨(hw.choice i hc).1.1, ?_⟩
        have := hl.member name i hc
        simp only [rank, owner, slotRank]
        omega
    · exact Comp.within_pure

theorem strValue_within (hk : WellFormed k) (hl : Layered k level) (s : Sym) :
    (strValue k u s).Within (Below k level (.sym s) (rank level (.str s))) := by
  have htri : Below k level (.sym s) (rank level (.str s)) (.tri s) :=
    ⟨.inl rfl, by simp [rank, owner, slotRank]⟩
  cases s with
  | const name =>
    simp only [strValue]
    split_ifs
    · exact Comp.within_bind (Comp.within_get.mpr htri) fun _ => Comp.within_pure
    · exact Comp.within_pure
  | var name =>
    have hw := symbolWithin hk hl name (n := rank level (.str (.var name)))
      (by simp only [rank, owner, slotRank]; omega)
    have hvis : Below k level (.sym (.var name)) (rank level (.str (.var name)))
        (.vis (.sym (.var name))) :=
      ⟨.inl rfl, by simp [rank, owner, slotRank]⟩
    simp only [strValue]
    split
    · exact Comp.within_bind (Comp.within_get.mpr htri) fun _ => Comp.within_pure
    · exact Comp.within_bind (Comp.within_get.mpr htri) fun _ => Comp.within_pure
    · exact Comp.within_pure
    · exact Comp.within_bind (hw.stringValue hvis) fun _ => Comp.within_pure
    · exact Comp.within_bind (hw.numberValue hvis) fun _ => Comp.within_pure
    · exact Comp.within_bind (hw.numberValue hvis) fun _ => Comp.within_pure

theorem assignable_within (hk : WellFormed k) (hl : Layered k level) (x : Item) :
    (compute k u (.assignable x)).Within (Below k level x (rank level (.assignable x))) := by
  have hvis : Below k level x (rank level (.assignable x)) (.vis x) := by
    refine ⟨.inl rfl, ?_⟩
    cases x <;> simp [rank, owner, slotRank]
  cases x with
  | sym s =>
    cases s with
    | const name => exact Comp.within_pure
    | var name =>
      exact (symbolWithin hk hl name (by simp only [rank, owner, slotRank]; omega)).assignable rfl
        hvis
  | choice i =>
    refine Comp.within_bind (visibility_within hvis) fun vis => ?_
    by_cases hv : vis = 0
    · rw [if_pos hv]
      exact Comp.within_pure
    · rw [if_neg hv]
      by_cases hv2 : vis = 2
      · rw [if_pos hv2]
        exact Comp.within_bind (choiceType_within (choice_modules hl i
          (by simp only [rank, owner, slotRank]; omega))) fun _ => Comp.within_pure
      · rw [if_neg hv2]
        exact Comp.within_pure

theorem compute_within (hk : WellFormed k) (hl : Layered k level) (hu : u.Valid k) (s : Slot) :
    (compute k u s).Within (Below k level (owner s) (rank level s)) := by
  cases s with
  | vis x =>
    cases x with
    | sym s =>
      cases s with
      | const name => exact Comp.within_pure
      | var name =>
        exact (symbolWithin hk hl name (by simp [rank, owner, slotRank])).symbolVisibility
    | choice i =>
      have hle : 6 * level (.choice i) ≤ rank level (.vis (.choice i)) := by
        simp [rank, owner, slotRank]
      have hdep := choice_depends_within hl i hle
      refine Comp.within_bind
        (promptValue_within (fun x hx => hdep x (List.mem_append_left _ hx)) 0) fun vis => ?_
      exact promote_within (choiceType_within (choice_modules hl i hle)) vis
  | tri s => exact triValue_within hk hl s
  | str s => exact strValue_within hk hl s
  | assignable x => exact assignable_within hk hl x
  | selection i =>
    have hle : 6 * level (.choice i) ≤ rank level (.selection i) := by
      simp [rank, owner, slotRank]
    have hvis : Below k level (.choice i) (rank level (.selection i)) (.vis (.choice i)) :=
      ⟨.inl rfl, by simp [rank, owner, slotRank]⟩
    refine selection_within ⟨hvis, choice_modules hl i hle⟩ ?_ (hk.defaults i) (hu.selection i)
      (choice_depends_within hl i hle)
    intro s hs
    refine ⟨.inr (.inr (.inr ⟨i, s, rfl, rfl, hs⟩)), ?_⟩
    have := hl.member s i ((hk.choice_iff s i).mpr hs)
    simp only [rank, owner, slotRank]
    omega

/-! ### The flag is set where anything is cached -/

theorem replay_bind_some {c : Cache Value} {β γ : Type} {p : Prog β} {f : β → Prog γ} {b : γ}
    (h : (p >>= f).replay c = some b) : ∃ a, p.replay c = some a := by
  rw [Comp.replay_bind] at h
  obtain ⟨a, ha, -⟩ := Option.bind_eq_some_iff.mp h
  exact ⟨a, ha⟩

theorem visibility_replay {c : Cache Value} {β : Type} {x : Item} {f : ℕ → Prog β} {b : β}
    (h : (visibility x >>= f).replay c = some b) : (c (.vis x)).isSome := by
  obtain ⟨a, ha⟩ := replay_bind_some h
  rw [visibility, get, Comp.replay_get] at ha
  exact Option.isSome_of_eq_some ha

theorem triValue_flag {c : Cache Value} {name : Text} {a : ℕ × Bool}
    (h : (triValue k u (.var name)).replay c = some a) :
    (c (.vis (.sym (.var name)))).isSome ∨
      ¬ ((k.symbol name).origType = .bool ∨ (k.symbol name).origType = .tristate) := by
  simp only [triValue] at h
  split_ifs at h with ht
  · left
    split at h
    · exact visibility_replay h
    · exact visibility_replay h
  · exact .inr ht

def Fixed (k : Kconfig) (s : Slot) (a : Value s) : Prop := ∀ u, compute k u s = .ret a

theorem fixed_of_pure {s : Slot} {a b : Value s} {c : Cache Value}
    (h : ∀ u, compute k u s = pure b) (ha : (compute k u s).replay c = some a) : Fixed k s a := by
  rw [h u] at ha
  obtain rfl := Option.some.inj ha
  exact h

theorem strValue_flag {c : Cache Value} (hc : Settled (compute k u) c) {name : Text}
    {a : Text × Bool} (h : (strValue k u (.var name)).replay c = some a) :
    (c (.vis (.sym (.var name)))).isSome ∨ Fixed k (.str (.var name)) a := by
  have htri : ∀ {f : ℕ × Bool → Prog (Text × Bool)},
      (get (.tri (.var name)) >>= f).replay c = some a →
      (k.symbol name).origType = .bool ∨ (k.symbol name).origType = .tristate →
      (c (.vis (.sym (.var name)))).isSome := by
    intro f hf ht
    obtain ⟨v, hv⟩ := replay_bind_some hf
    rw [get, Comp.replay_get] at hv
    exact (triValue_flag (hc (.tri (.var name)) v hv)).resolve_right fun hn => hn ht
  cases ht : (k.symbol name).origType with
  | unknown =>
    exact .inr
      (fixed_of_pure (b := (name, false)) (fun _ => by simp only [compute, strValue, ht]) h)
  | bool =>
    simp only [strValue, ht] at h
    exact .inl (htri h (.inl ht))
  | tristate =>
    simp only [strValue, ht] at h
    exact .inl (htri h (.inr ht))
  | string =>
    simp only [strValue, ht] at h
    obtain ⟨v, hv⟩ := replay_bind_some h
    exact .inl (visibility_replay hv)
  | int =>
    simp only [strValue, ht] at h
    obtain ⟨v, hv⟩ := replay_bind_some h
    exact .inl (visibility_replay hv)
  | hex =>
    simp only [strValue, ht] at h
    obtain ⟨v, hv⟩ := replay_bind_some h
    exact .inl (visibility_replay hv)

theorem assignable_flag {c : Cache Value} {x : Item} {a : List ℕ}
    (h : (compute k u (.assignable x)).replay c = some a) (hx : x ∈ k.items) :
    (c (.vis x)).isSome ∨ Fixed k (.assignable x) a := by
  cases x with
  | sym s =>
    cases s with
    | const name => exact absurd hx const_not_mem_items
    | var name =>
      by_cases ht : (k.symbol name).origType = .bool ∨ (k.symbol name).origType = .tristate
      · simp only [compute, symbolAssignable, if_pos ht] at h
        exact .inl (visibility_replay h)
      · refine .inr (fixed_of_pure (b := []) (fun _ => ?_) h)
        simp only [compute, symbolAssignable, if_neg ht]
  | choice i => exact .inl (visibility_replay h)

theorem compute_flag {c : Cache Value} (hc : Settled (compute k u) c) {s : Slot} {a : Value s}
    (h : c s = some a) (hs : owner s ∈ k.items) :
    (c (.vis (owner s))).isSome ∨ Fixed k s a := by
  have hreplay := hc s a h
  cases s with
  | vis x => exact .inl (Option.isSome_of_eq_some h)
  | tri s =>
    cases s with
    | const name => exact absurd hs const_not_mem_items
    | var name =>
      refine (triValue_flag hreplay).imp_right fun ht => ?_
      refine fixed_of_pure (b := (0, false)) (fun _ => ?_) hreplay
      simp only [compute, triValue, if_neg ht]
  | str s =>
    cases s with
    | const name => exact absurd hs const_not_mem_items
    | var name => exact strValue_flag hc hreplay
  | assignable x => exact assignable_flag hreplay hs
  | selection i =>
    obtain ⟨v, hv⟩ := replay_bind_some hreplay
    exact .inl (visibility_replay hv)

/-! ### The dependencies track the computations -/

theorem tracks (hk : WellFormed k) (hl : Layered k level) (hu : u.Valid k) :
    (deps k).Tracks (compute k u) where
  reads s t h := by
    obtain ⟨hcov, -⟩ := compute_within hk hl hu s t h
    rcases hcov with hself | hdep | ⟨hmod, hitem⟩ | hin
    · exact .inr (.inl hself)
    · rcases mem_items_of_depends hdep with hitem | hn
      · exact .inr (.inr (.inl (mem_dependents.mpr ⟨hitem, .inl hdep⟩)))
      · left
        change owner t ∉ k.items
        rw [hn]
        exact const_not_mem_items
    · exact .inr (.inr (.inr ⟨decide_eq_true hmod, hitem⟩))
    · refine .inr (.inr (.inl (mem_dependents.mpr ⟨?_, .inr hin⟩)))
      obtain ⟨i, name, hx, -, hmem⟩ := hin
      change owner s ∈ k.items
      rw [hx]
      exact mem_items_of_member hmem
  flags c hc s a h hs := (compute_flag hc h hs).imp_right fun hf => hf u

theorem ranked (hk : WellFormed k) (hl : Layered k level) (hu : u.Valid k) :
    Ranked (compute k u) (rank level) :=
  fun s t h => (compute_within hk hl hu s t h).2

end

end HaoosLfs.Menu
