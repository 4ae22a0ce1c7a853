import HaoosLfs.Menu.Choices

/-!
# Assignable values (`kconfiglib.py:4415-4510, 4570-4620, 4690-4745, 5115-5150`)

`assignable` lists the values that an assignment brings about. A value that is taken from
it is the value of the symbol, or the mode of the choice, once it has been set.
-/

namespace HaoosLfs.Menu
open Memo

/-! ### What an assignment changes -/

section

variable {k : Kconfig} {st st' : State}

theorem recInvalidate_inputs {x : Item} (h : recInvalidate k st x = some st') :
    st'.inputs = st.inputs := by
  obtain ⟨c, -, rfl⟩ := Option.map_eq_some_iff.mp h
  rfl

theorem recInvalidateIfHasPrompt_inputs {name : Text}
    (h : recInvalidateIfHasPrompt k st name = some st') : st'.inputs = st.inputs := by
  unfold recInvalidateIfHasPrompt at h
  split_ifs at h
  · rw [Option.some.inj h]
  · exact recInvalidate_inputs h

def Inputs.assign (k : Kconfig) (u : Inputs) (name : Text) (v : UserValue) : Inputs :=
  match (k.symbol name).choice, v with
  | some i, .tri 2 => (u.setValue name (some v)).setSelection i (some name)
  | _, _ => u.setValue name (some v)

theorem Inputs.assign_of_y {u : Inputs} {name : Text} {i : ℕ}
    (hc : (k.symbol name).choice = some i) :
    u.assign k name (.tri 2) =
      (u.setValue name (some (.tri 2))).setSelection i (some name) := by
  simp only [Inputs.assign, hc]

theorem Inputs.assign_of_ne {u : Inputs} {name : Text} {v : UserValue}
    (h : ∀ i, (k.symbol name).choice = some i → v ≠ .tri 2) :
    u.assign k name v = u.setValue name (some v) := by
  unfold Inputs.assign
  split
  · rename_i i hc
    exact absurd rfl (h i hc)
  · rfl

theorem Inputs.setValue_self {u : Inputs} {name : Text} {v : UserValue}
    (h : u.userValue name = some v) : u.setValue name (some v) = u := by
  rw [Inputs.setValue, ← h, Function.update_eq_self]

theorem setValue_inputs (hu : st.inputs.Valid k) {name : Text} {v w : UserValue}
    (hv : validValue (k.symbol name).origType v = some w) (h : setValue k st name v = some st') :
    st'.inputs = st.inputs.assign k name w := by
  dsimp only [setValue] at h
  split_ifs at h with hsame
  · obtain ⟨huser, hc⟩ := hsame
    obtain rfl : v = w := Option.some.inj ((hu.value name v huser).symm.trans hv)
    obtain rfl := Option.some.inj h
    simp only [Inputs.assign, hc, Inputs.setValue_self huser]
    rfl
  · rw [hv] at h
    dsimp only at h
    by_cases hy : w = .tri 2 ∧ ∃ i, (k.symbol name).choice = some i
    · obtain ⟨rfl, i, hc⟩ := hy
      rw [Inputs.assign_of_y hc]
      rw [hc] at h
      exact recInvalidate_inputs h
    · have hne : ∀ i, (k.symbol name).choice = some i → w ≠ .tri 2 :=
        fun i hc hw => hy ⟨hw, i, hc⟩
      rw [Inputs.assign_of_ne hne]
      split at h
      · rename_i i hc
        exact absurd rfl (hne i hc)
      · rw [recInvalidateIfHasPrompt_inputs h]
        rfl

theorem setChoice_inputs {i v : ℕ} (htype : (k.choice i).origType = .bool ∨
      (k.choice i).origType = .tristate)
    (hv : validValue (k.choice i).origType (.tri v) = some (.tri v))
    (h : setChoice k st i (.tri v) = some st') :
    st'.inputs = st.inputs.setMode i (some v) := by
  unfold setChoice at h
  split_ifs at h with hsame
  · have hm : st.inputs.mode i = some v := by
      cases hmode : st.inputs.mode i with
      | none =>
        rw [hmode] at hsame
        cases hsame
      | some w =>
        rw [hmode] at hsame
        obtain rfl := UserValue.tri.inj (Option.some.inj hsame)
        rfl
    obtain rfl := Option.some.inj h
    rw [Inputs.setMode, ← hm, Function.update_eq_self]
    rfl
  · rw [hv] at h
    rcases htype with ht | ht
    · rw [ht] at h
      exact recInvalidate_inputs h
    · rw [ht] at h
      exact recInvalidate_inputs h

end

/-! ### Symbols outside choices -/

section

variable {k : Kconfig} {u u' : Inputs} {env : Env}

def userTri (rev vis : ℕ) (noM : Bool) (v : ℕ) : ℕ :=
  if max rev (min v vis) = 1 then (if noM then 2 else 1) else max rev (min v vis)

theorem withRev_fst (env : Env) (sym : Symbol) (r : ℕ × Bool) :
    ((withRev k u sym r).value env).1 = max ((exprValue k u sym.revDep).value env) r.1 := by
  rw [withRev, Comp.value_bind]
  split_ifs with h0
  · rw [h0, Nat.zero_max]
    rfl
  · rw [Comp.value_bind, Comp.value_pure]

theorem promoteTri_fst (env : Env) (sym : Symbol) (r : ℕ × Bool) :
    ((promoteTri k u sym r).value env).1 =
      if r.1 = 1 then (if (notM k u sym).value env then 2 else 1) else r.1 := by
  unfold promoteTri
  split_ifs with h1 h2
  · rw [Comp.value_bind, h2]
    rfl
  · rw [Comp.value_bind, Bool.eq_false_iff.mpr h2]
    rfl
  · rfl

theorem plainTri_value (env : Env) (name : Text) (sym : Symbol) :
    (plainTri k u name sym).value env = (promoteTri k u sym ((withRev k u sym
      ((ownTri k u name sym (visIn env (.sym (.var name)))).value env)).value env)).value env := by
  simp only [plainTri, Comp.value_bind]
  rfl

theorem plainTri_user {name : Text} {sym : Symbol} {v : ℕ} (hv : u.tri name = some v)
    (hvis : visIn env (.sym (.var name)) ≠ 0) :
    ((plainTri k u name sym).value env).1 =
      userTri ((exprValue k u sym.revDep).value env) (visIn env (.sym (.var name)))
        ((notM k u sym).value env) v := by
  have hown : (ownTri k u name sym (visIn env (.sym (.var name)))).value env =
      (min v (visIn env (.sym (.var name))), true) := by
    rw [ownTri, hv, if_pos ⟨rfl, hvis⟩]
    rfl
  rw [plainTri_value, promoteTri_fst, withRev_fst, hown]
  rfl

theorem promote_eq_one {type : Prog SymbolType} {vis : ℕ} (h : (promote vis type).value env = 1) :
    type.value env = .tristate := by
  by_contra ht
  exact promote_ne_one ht h

theorem Solves.type_of_m (h : Solves k u env) {name : Text}
    (hvis : visIn env (.sym (.var name)) = 1) :
    (symbolType k u (k.symbol name)).value env = .tristate := by
  have heq : visIn env (.sym (.var name)) = (symbolVisibility k u (k.symbol name)).value env :=
    h.eq _
  rw [hvis, symbolVisibility, Comp.value_bind, Comp.value_bind] at heq
  split_ifs at heq
  · cases heq
  · exact promote_eq_one heq.symm

/-- Nothing speaks against the user value: with m visibility a symbol that is selected with
m is not implied with y, and a choice symbol neither selected nor implied. -/
structure Undisturbed (k : Kconfig) (u : Inputs) (env : Env) (name : Text) : Prop where
  plain : visIn env (.sym (.var name)) = 1 →
    ¬ ((exprValue k u (k.symbol name).revDep).value env = 1 ∧
      (exprValue k u (k.symbol name).weakRevDep).value env = 2)
  member : visIn env (.sym (.var name)) = 1 → (k.symbol name).choice ≠ none →
    (exprValue k u (k.symbol name).revDep).value env = 0 ∧
      (exprValue k u (k.symbol name).weakRevDep).value env ≠ 2

theorem notM_value {sym : Symbol} : (notM k u sym).value env = decide
    ((symbolType k u sym).value env = .bool ∨ (exprValue k u sym.weakRevDep).value env = 2) := by
  rw [notM, Comp.value_bind]
  split_ifs with ht
  · simp [ht]
  · simp [ht]

theorem assignableY_user {sym : Symbol} (hc : sym.choice = none) {rev : ℕ} (hrev : rev ≤ 2) {v : ℕ}
    (hv : v ∈ (assignableY k u sym rev).value env) :
    userTri rev 2 ((notM k u sym).value env) v = v := by
  simp only [assignableY, hc, Option.isSome_none, Bool.false_eq_true, false_or] at hv
  split_ifs at hv with hr2
  · rw [Comp.value_pure, List.mem_singleton] at hv
    rw [hv, hr2]
    rfl
  · rw [Comp.value_bind, Comp.value_pure] at hv
    have hr : rev = 0 ∨ rev = 1 := by omega
    cases hm : (notM k u sym).value env <;> rcases hr with rfl | rfl <;>
      simp only [hm, List.mem_cons, List.not_mem_nil, or_false] at hv
    · rcases hv with rfl | rfl | rfl <;> rfl
    · rcases hv with rfl | rfl <;> rfl
    · rcases hv with rfl | rfl <;> rfl
    · rw [hv]
      rfl

theorem assignableM_user {sym : Symbol} {rev : ℕ} (hrev : rev ≤ 2)
    (htype : (symbolType k u sym).value env = .tristate)
    (hno : ¬ (rev = 1 ∧ (exprValue k u sym.weakRevDep).value env = 2)) {v : ℕ}
    (hv : v ∈ (assignableM k u sym rev).value env) :
    userTri rev 1 ((notM k u sym).value env) v = v := by
  have hm : (notM k u sym).value env = decide ((exprValue k u sym.weakRevDep).value env = 2) := by
    rw [notM_value, htype]
    simp
  rw [hm]
  unfold assignableM at hv
  split_ifs at hv with h0 h2
  · rw [Comp.value_bind, Comp.value_pure] at hv
    subst h0
    split_ifs at hv with hw
    · simp only [List.mem_cons, List.not_mem_nil, or_false] at hv
      rcases hv with rfl | rfl <;> simp [userTri, hw]
    · simp only [List.mem_cons, List.not_mem_nil, or_false] at hv
      rw [not_not] at hw
      rcases hv with rfl | rfl <;> simp [userTri, hw]
  · rw [Comp.value_pure, List.mem_singleton] at hv
    rw [hv, h2]
    simp [userTri]
  · rw [Comp.value_pure, List.mem_singleton] at hv
    have h1 : rev = 1 := by omega
    have hw : (exprValue k u sym.weakRevDep).value env ≠ 2 := fun hw => hno ⟨h1, hw⟩
    rw [hv, h1]
    simp [userTri, hw]

theorem Solves.assignable_plain (h : Solves k u env) {name : Text}
    (hc : (k.symbol name).choice = none) (hno : Undisturbed k u env name) {v : ℕ}
    (hv : v ∈ env (.assignable (.sym (.var name)))) :
    visIn env (.sym (.var name)) ≠ 0 ∧
      ((k.symbol name).origType = .bool ∨ (k.symbol name).origType = .tristate) ∧
      userTri ((exprValue k u (k.symbol name).revDep).value env) (visIn env (.sym (.var name)))
        ((notM k u (k.symbol name)).value env) v = v := by
  have heq : env (.assignable (.sym (.var name))) =
      (symbolAssignable k u (.var name)).value env := h.eq _
  have hrev : (exprValue k u (k.symbol name).revDep).value env ≤ 2 := h.bounded.exprValue_le _
  have hvis2 : visIn env (.sym (.var name)) ≤ 2 := h.bounded.vis _
  rw [heq] at hv
  dsimp only [symbolAssignable] at hv
  by_cases ht : (k.symbol name).origType = .bool ∨ (k.symbol name).origType = .tristate
  · have hvv : (visibility (.sym (.var name))).value env = visIn env (.sym (.var name)) := rfl
    rw [if_pos ht, Comp.value_bind, hvv] at hv
    by_cases h0 : visIn env (.sym (.var name)) = 0
    · rw [if_pos h0] at hv
      cases hv
    · rw [if_neg h0, Comp.value_bind] at hv
      refine ⟨h0, ht, ?_⟩
      by_cases h2 : visIn env (.sym (.var name)) = 2
      · rw [if_pos h2] at hv
        rw [h2]
        exact assignableY_user hc hrev hv
      · rw [if_neg h2] at hv
        have h1 : visIn env (.sym (.var name)) = 1 := by omega
        rw [h1]
        exact assignableM_user hrev (h.type_of_m h1) (hno.plain h1) hv
  · rw [if_neg ht] at hv
    cases hv

theorem userTri_valid {rev vis v : ℕ} {noM : Bool} (hrev : rev ≤ 2) (hvis : vis ≤ 2)
    (hv : userTri rev vis noM v = v) : v ≤ 2 ∧ (noM = true → v ≠ 1) := by
  unfold userTri at hv
  split_ifs at hv with h1 hm
  · exact ⟨by omega, fun _ => by omega⟩
  · exact ⟨by omega, fun hn => absurd hn hm⟩
  · exact ⟨by omega, fun _ => by omega⟩

theorem validValue_tri {type : SymbolType} {v : ℕ} (ht : type = .bool ∨ type = .tristate)
    (hle : v ≤ 2) (hb : type = .bool → v ≠ 1) :
    validValue type (.tri v) = some (.tri v) := by
  have hv : v = 0 ∨ v = 1 ∨ v = 2 := by omega
  rcases ht with rfl | rfl
  · rcases hv with rfl | rfl | rfl
    · rfl
    · exact absurd rfl (hb rfl)
    · rfl
  · rcases hv with rfl | rfl | rfl <;> rfl

end

section

variable {k : Kconfig} {level : Item → ℕ} {u u' : Inputs} (hk : WellFormed k) (hl : Layered k level)

theorem below_congr (hu : u.Valid k) (hu' : u'.Valid k) {n : ℕ} (hmode : u.mode = u'.mode)
    (h : ∀ t, rank level t < n → (∀ name, owner t = .sym (.var name) →
      u.userValue name = u'.userValue name ∨ t = .vis (.sym (.var name))) ∧
      ∀ i, t = .selection i → u.userSelection i = u'.userSelection i) {t : Slot}
    (ht : rank level t < n) : value hk hl hu t = value hk hl hu' t := by
  refine solution_congr _ _ (fun s hs => ?_) ht
  obtain ⟨hval, hsel⟩ := h s hs
  have hm : ∀ i, u.mode i = u'.mode i := fun i => congrFun hmode i
  have hmodes : ∀ sym, SameModes u u' sym := fun _ => ⟨fun i _ => hm i, fun i _ => hm i⟩
  cases ho : owner s with
  | sym t =>
    cases t with
    | const name =>
      refine compute_congr hk ?_
      rw [ho]
      exact ⟨nofun, nofun, fun i _ => hm i⟩
    | var name =>
      rcases hval name ho with hv | hv
      · refine compute_congr hk ?_
        rw [ho]
        refine ⟨fun t ht => ?_, nofun, fun i _ => hm i⟩
        obtain rfl : name = t := Sym.var.inj (Item.sym.inj ht)
        exact hv
      · rw [hv]
        exact (hmodes _).symbolVisibility
  | choice i =>
    cases s with
    | vis x =>
      obtain rfl : x = .choice i := ho
      exact congrArg (· >>= _) (promptValue_congr (fun i _ => hm i) 0)
    | tri t => cases ho
    | str t => cases ho
    | assignable x =>
      obtain rfl : x = .choice i := ho
      rfl
    | selection j =>
      obtain rfl : j = i := Item.choice.inj ho
      refine compute_congr hk ⟨nofun, fun i hi => ?_, fun i _ => hm i⟩
      obtain rfl : j = i := Item.choice.inj hi
      exact hsel j rfl

theorem value_below {β : Type} {x : Item} {n : ℕ} {p : Prog β} {env env' : Env}
    (hp : p.Within (Below k level x n)) (h : ∀ t, rank level t < n → env t = env' t) :
    p.value env = p.value env' :=
  Comp.value_congr fun t ht => h t (hp t ht).2

theorem eq_vis_of_rank {name : Text} {t : Slot} (ho : owner t = .sym (.var name))
    (ht : rank level t < rank level (.tri (.var name))) : t = .vis (.sym (.var name)) := by
  cases t with
  | vis x =>
    obtain rfl : x = .sym (.var name) := ho
    rfl
  | tri s =>
    obtain rfl : s = .var name := Item.sym.inj ho
    omega
  | str s =>
    obtain rfl : s = .var name := Item.sym.inj ho
    simp only [rank, owner, slotRank] at ht
    omega
  | assignable x =>
    obtain rfl : x = .sym (.var name) := ho
    simp only [rank, owner, slotRank] at ht
    omega
  | selection i => cases ho

theorem assign_plain (hu : u.Valid k) {name : Text} (hc : (k.symbol name).choice = none)
    (hno : Undisturbed k u (value hk hl hu) name) {v : ℕ}
    (hv : v ∈ value hk hl hu (.assignable (.sym (.var name))))
    (hu' : (u.setValue name (some (.tri v))).Valid k) :
    triIn (value hk hl hu') (.var name) = v := by
  have h : Solves k u (value hk hl hu) := ⟨bounded_value hk hl hu, solution_eq _⟩
  obtain ⟨hvis, ht, huser⟩ := h.assignable_plain hc hno hv
  have hbelow : ∀ t, rank level t < rank level (.tri (.var name)) →
      value hk hl hu t = value hk hl hu' t := by
    intro t htr
    refine below_congr hk hl hu hu' rfl (fun s hs => ⟨fun other ho => ?_, fun _ _ => rfl⟩) htr
    by_cases hname : other = name
    · rw [hname] at ho ⊢
      exact .inr (eq_vis_of_rank ho hs)
    · exact .inl (Function.update_of_ne hname _ u.userValue).symm
  have hw := symbolWithin hk hl name (n := rank level (.tri (.var name)))
    (by simp only [rank, owner, slotRank]; omega)
  have hm : SameModes u (u.setValue name (some (.tri v))) (k.symbol name) :=
    ⟨fun _ _ => rfl, fun _ _ => rfl⟩
  have hvis' : visIn (value hk hl hu') (.sym (.var name)) =
      visIn (value hk hl hu) (.sym (.var name)) := by
    refine (hbelow (.vis (.sym (.var name))) ?_).symm
    simp [rank, owner, slotRank]
  have hrev : (exprValue k (u.setValue name (some (.tri v))) (k.symbol name).revDep).value
      (value hk hl hu') = (exprValue k u (k.symbol name).revDep).value (value hk hl hu) := by
    rw [← hm.revDep]
    exact (value_below hw.revDep hbelow).symm
  have hnotM : (notM k (u.setValue name (some (.tri v))) (k.symbol name)).value
      (value hk hl hu') = (notM k u (k.symbol name)).value (value hk hl hu) := by
    rw [← hm.notM]
    exact (value_below hw.notM hbelow).symm
  have hset : (u.setValue name (some (.tri v))).tri name = some v := by
    simp [Inputs.tri, Inputs.setValue]
  have htri : value hk hl hu' (.tri (.var name)) =
      (plainTri k (u.setValue name (some (.tri v))) name (k.symbol name)).value
        (value hk hl hu') := by
    refine (solution_eq _ _).trans ?_
    simp only [compute, triValue, if_pos ht, hc]
    rfl
  rw [triIn, htri, plainTri_user hset (by rwa [hvis']), hrev, hvis', hnotM, huser]

/-! ### Symbols of choices -/

theorem Solves.assignable_member {u : Inputs} {env : Env} (h : Solves k u env) {name : Text} {i : ℕ}
    (hc : (k.symbol name).choice = some i) (hno : Undisturbed k u env name) {v : ℕ}
    (hv : v ∈ env (.assignable (.sym (.var name)))) :
    visIn env (.sym (.var name)) = 2 ∧ v = 2 ∨ visIn env (.sym (.var name)) = 1 ∧ v ≤ 1 := by
  have heq : env (.assignable (.sym (.var name))) =
      (symbolAssignable k u (.var name)).value env := h.eq _
  have hvis2 : visIn env (.sym (.var name)) ≤ 2 := h.bounded.vis _
  have hvv : (visibility (.sym (.var name))).value env = visIn env (.sym (.var name)) := rfl
  rw [heq] at hv
  dsimp only [symbolAssignable] at hv
  split_ifs at hv
  swap
  · cases hv
  rw [Comp.value_bind, hvv] at hv
  by_cases h0 : visIn env (.sym (.var name)) = 0
  · rw [if_pos h0] at hv
    cases hv
  rw [if_neg h0, Comp.value_bind] at hv
  by_cases h2 : visIn env (.sym (.var name)) = 2
  · rw [if_pos h2, assignableY, if_pos (.inl (by rw [hc]; rfl)), Comp.value_pure] at hv
    exact .inl ⟨h2, List.mem_singleton.mp hv⟩
  · have h1 : visIn env (.sym (.var name)) = 1 := by omega
    obtain ⟨hrev, hweak⟩ := hno.member h1 (by rw [hc]; simp)
    rw [if_neg h2, assignableM, if_pos hrev, Comp.value_bind, if_pos hweak] at hv
    have hv1 : v = 0 ∨ v = 1 := by simpa using hv
    exact .inr ⟨h1, by omega⟩

theorem assign_member {u : Inputs} (hu : u.Valid k) {name : Text} {i : ℕ} (hs : Sane k i)
    (hc : (k.symbol name).choice = some i) (hno : Undisturbed k u (value hk hl hu) name) {v : ℕ}
    (hv : v ∈ value hk hl hu (.assignable (.sym (.var name))))
    (hu' : (u.assign k name (.tri v)).Valid k) :
    triIn (value hk hl hu') (.var name) = v := by
  have h : Solves k u (value hk hl hu) := ⟨bounded_value hk hl hu, solution_eq _⟩
  have h' : Solves k (u.assign k name (.tri v)) (value hk hl hu') :=
    ⟨bounded_value hk hl hu', solution_eq _⟩
  have hname : name ∈ (k.choice i).syms := (hk.choice_iff name i).mp hc
  have hlevel := hl.member name i hc
  have hmode : u.mode = (u.assign k name (.tri v)).mode := by
    unfold Inputs.assign
    split <;> rfl
  have hval : (u.assign k name (.tri v)).userValue =
      Function.update u.userValue name (some (.tri v)) := by
    unfold Inputs.assign
    split <;> rfl
  have hbelow : ∀ t, rank level t < rank level (.selection i) →
      value hk hl hu t = value hk hl hu' t := by
    intro t htr
    refine below_congr hk hl hu hu' hmode
      (fun s hsr => ⟨fun other ho => ?_, fun j hj => ?_⟩) htr
    · by_cases ho' : other = name
      · rw [ho'] at ho ⊢
        refine .inr (eq_vis_of_rank ho (lt_trans hsr ?_))
        simp only [rank, owner, slotRank, hlevel]
        omega
      · rw [hval]
        exact .inl (Function.update_of_ne ho' _ u.userValue).symm
    · have hji : j ≠ i := by
        rintro rfl
        rw [hj] at hsr
        exact lt_irrefl _ hsr
      unfold Inputs.assign
      split
      · rename_i j' _ hj' _
        obtain rfl := Option.some.inj (hc.symm.trans hj')
        exact (Function.update_of_ne hji _ u.userSelection).symm
      · rfl
  have hvis : visIn (value hk hl hu') (.sym (.var name)) =
      visIn (value hk hl hu) (.sym (.var name)) := by
    refine (hbelow (.vis (.sym (.var name))) ?_).symm
    simp only [rank, owner, slotRank, hlevel]
    omega
  have hchoice : (choiceTri k (u.assign k name (.tri v)) i).value (value hk hl hu') =
      (choiceTri k u i).value (value hk hl hu) := by
    have hle : 6 * level (.choice i) ≤ rank level (.selection i) := by
      simp only [rank, owner, slotRank]
      omega
    have hw : (choiceTri k u i).Within (Below k level (.choice i) (rank level (.selection i))) :=
      choiceTri_within ⟨⟨.inl rfl, by simp [rank, owner, slotRank]⟩, choice_modules hl i hle⟩
    rw [← choiceTri_congr (congrFun hmode i)]
    exact (value_below hw hbelow).symm
  rw [h'.tri_of_member hs hk hname, hvis]
  rcases h.assignable_member hc hno hv with ⟨h2, rfl⟩ | ⟨h1, hle⟩
  · have hy : (choiceTri k u i).value (value hk hl hu) = 2 := by
      have hle := (h.vis_of_member hs hk hname).1
      have hle2 := h.bounded.choiceTri_le (u := u) i
      omega
    have huser : (u.assign k name (.tri 2)).userSelection i = some name := by
      simp [Inputs.assign, hc, Inputs.setSelection]
    have hsel : value hk hl hu' (.selection i) = some name := by
      have hvv : (visibility (.sym (.var name))).value (value hk hl hu') = 2 := hvis.trans h2
      rw [h'.eq, compute, selection, Comp.value_bind, hchoice, if_neg (not_not.mpr hy), huser]
      simp only [Comp.value_bind, hvv]
      rfl
    rw [if_pos h2, if_pos hsel]
  · have hset : (u.assign k name (.tri v)).tri name = some v := by
      rw [Inputs.tri, hval, Function.update_self]
    rw [h1, hset, if_neg (by omega)]
    simp only [Option.getD_some]
    split_ifs <;> omega

/-! ### Modes of choices -/

def userMode (optional : Bool) (vis : ℕ) (type : SymbolType) (v : ℕ) : ℕ :=
  if min (max (if optional then 0 else 1) v) vis = 1 then (if type = .bool then 2 else 1)
  else min (max (if optional then 0 else 1) v) vis

theorem choiceTri_user {u : Inputs} {env : Env} {i v : ℕ} (hv : u.mode i = some v) :
    (choiceTri k u i).value env = userMode (k.choice i).isOptional (visIn env (.choice i))
      ((choiceType k (k.choice i)).value env) v := by
  have hvv : (visibility (.choice i)).value env = visIn env (.choice i) := rfl
  have hw : wantedMode (k.choice i) (some v) =
      max (if (k.choice i).isOptional then 0 else 1) v := rfl
  rw [choiceTri, Comp.value_bind, hvv, hv, hw, userMode]
  generalize min (max (if (k.choice i).isOptional then 0 else 1) v) (visIn env (.choice i)) = m
  unfold promoteMode
  by_cases h1 : m = 1
  · rw [if_pos h1, if_pos h1, Comp.value_bind, Comp.value_pure, h1]
  · rw [if_neg h1, if_neg h1, Comp.value_pure]

theorem Solves.assignable_choice {u : Inputs} {env : Env} (h : Solves k u env) {i v : ℕ}
    (hv : v ∈ env (.assignable (.choice i))) :
    v ≤ 2 ∧ ((choiceType k (k.choice i)).value env = .bool → v ≠ 1) ∧
      userMode (k.choice i).isOptional (visIn env (.choice i))
        ((choiceType k (k.choice i)).value env) v = v := by
  have heq : env (.assignable (.choice i)) = (choiceAssignable k i).value env := h.eq _
  have hvis : visIn env (.choice i) = (choiceVisibility k u (k.choice i)).value env := h.eq _
  have hvis2 : visIn env (.choice i) ≤ 2 := h.bounded.vis _
  have hvv : (visibility (.choice i)).value env = visIn env (.choice i) := rfl
  rw [heq] at hv
  dsimp only [choiceAssignable] at hv
  rw [Comp.value_bind, hvv] at hv
  by_cases h0 : visIn env (.choice i) = 0
  · rw [if_pos h0] at hv
    cases hv
  rw [if_neg h0] at hv
  by_cases h2 : visIn env (.choice i) = 2
  · rw [if_pos h2, Comp.value_bind, Comp.value_pure] at hv
    rw [h2]
    split_ifs at hv with ho ht ht
    all_goals
      simp only [List.mem_cons, List.not_mem_nil, or_false] at hv
    · rcases hv with rfl | rfl <;> simp [userMode, ho]
    · rcases hv with rfl | rfl | rfl <;> simp [userMode, ho, ht]
    · rw [hv]
      simp [userMode, ho]
    · rcases hv with rfl | rfl <;> simp [userMode, ho, ht]
  · have h1 : visIn env (.choice i) = 1 := by omega
    have ht : (choiceType k (k.choice i)).value env = .tristate := by
      rw [h1, choiceVisibility, Comp.value_bind] at hvis
      exact promote_eq_one hvis.symm
    rw [if_neg h2, Comp.value_pure] at hv
    rw [h1, ht]
    split_ifs at hv with ho
    all_goals
      simp only [List.mem_cons, List.not_mem_nil, or_false] at hv
    · rcases hv with rfl | rfl <;> simp [userMode, ho]
    · rw [hv]
      simp [userMode, ho]

theorem eq_vis_of_rank_choice {i : ℕ} {t : Slot} (ho : owner t = .choice i)
    (ht : rank level t < 6 * level (.choice i) + 1) : t = .vis (.choice i) := by
  cases t with
  | vis x =>
    obtain rfl : x = .choice i := ho
    rfl
  | tri s => cases ho
  | str s => cases ho
  | assignable x =>
    obtain rfl : x = .choice i := ho
    simp only [rank, owner, slotRank] at ht
    omega
  | selection j =>
    obtain rfl : j = i := Item.choice.inj ho
    simp only [rank, owner, slotRank] at ht
    omega

include hl in
theorem rank_of_depends {i : ℕ} {t : Slot} (h : .choice i ∈ k.depends (owner t)) :
    6 * level (.choice i) + 1 ≤ rank level t := by
  have hrank : rank level t = 6 * level (owner t) + slotRank t := rfl
  cases ho : owner t with
  | sym s =>
    rw [ho] at h hrank
    cases s with
    | const name => cases h
    | var name =>
      rcases hl.symbol name _ h with hlt | ⟨j, hj, hc⟩
      · omega
      · obtain rfl := Item.choice.inj hj
        have hlevel := hl.member name i hc
        have hpos : 1 ≤ slotRank t := by
          cases t with
          | vis x =>
            obtain rfl : x = .sym (.var name) := ho
            exact le_refl 1
          | tri s => simp [slotRank]
          | str s => simp [slotRank]
          | assignable x => simp [slotRank]
          | selection j => simp [slotRank]
        omega
  | choice j =>
    rw [ho] at h hrank
    have hlt := hl.choice j _ h
    omega

theorem assign_choice {u : Inputs} (hu : u.Valid k) {i v : ℕ}
    (hv : v ∈ value hk hl hu (.assignable (.choice i))) (hu' : (u.setMode i (some v)).Valid k) :
    (choiceTri k (u.setMode i (some v)) i).value (value hk hl hu') = v := by
  have h : Solves k u (value hk hl hu) := ⟨bounded_value hk hl hu, solution_eq _⟩
  have hset : (u.setMode i (some v)).mode i = some v := Function.update_self ..
  have hother : ∀ j ≠ i, u.mode j = (u.setMode i (some v)).mode j :=
    fun j hj => (Function.update_of_ne hj _ u.mode).symm
  have hbelow : ∀ t, rank level t < 6 * level (.choice i) + 1 →
      value hk hl hu t = value hk hl hu' t := by
    intro t htr
    refine solution_congr _ _ (fun s hs => ?_) htr
    have hne : ∀ j, .choice j ∈ k.depends (owner s) → j ≠ i := by
      rintro j hj rfl
      exact absurd hs (not_lt.mpr (rank_of_depends hl hj))
    have hdep : ∀ j, .choice j ∈ k.depends (owner s) →
        u.mode j = (u.setMode i (some v)).mode j := fun j hj => hother j (hne j hj)
    by_cases ho : owner s = .choice i
    · have hs' : s = .vis (.choice i) := eq_vis_of_rank_choice ho hs
      rw [hs'] at hdep ⊢
      exact congrArg (· >>= _)
        (promptValue_congr (fun j hj => hdep j (List.mem_append_left _ hj)) 0)
    · refine compute_congr hk ⟨fun _ _ => rfl, fun _ _ => rfl, fun j hj => ?_⟩
      rcases hj with hj | hj
      · exact hdep j hj
      · refine hother j ?_
        rintro rfl
        exact ho hj
  have hvis : visIn (value hk hl hu') (.choice i) = visIn (value hk hl hu) (.choice i) := by
    refine (hbelow (.vis (.choice i)) ?_).symm
    simp [rank, owner, slotRank]
  have htype : (choiceType k (k.choice i)).value (value hk hl hu') =
      (choiceType k (k.choice i)).value (value hk hl hu) := by
    have hw : (choiceType k (k.choice i)).Within
        (Below k level (.choice i) (6 * level (.choice i) + 1)) :=
      choiceType_within (choice_modules hl i (Nat.le_succ _))
    exact (value_below hw hbelow).symm
  rw [choiceTri_user hset, hvis, htype]
  exact (h.assignable_choice hv).2.2

end

/-! ### After any operations -/

theorem Solves.assignable_valid {k : Kconfig} {u : Inputs} {env : Env} (h : Solves k u env)
    {name : Text} (hs : ∀ i, (k.symbol name).choice = some i → Sane k i)
    (hk : WellFormed k) (hno : Undisturbed k u env name) {v : ℕ}
    (hv : v ∈ env (.assignable (.sym (.var name)))) :
    validValue (k.symbol name).origType (.tri v) = some (.tri v) := by
  have hvis2 : visIn env (.sym (.var name)) ≤ 2 := h.bounded.vis _
  cases hc : (k.symbol name).choice with
  | none =>
    obtain ⟨-, ht, huser⟩ := h.assignable_plain hc hno hv
    obtain ⟨hle, hne⟩ := userTri_valid (h.bounded.exprValue_le _) hvis2 huser
    exact validValue_tri ht hle fun hb => hne (notM_of_bool hb)
  | some i =>
    have ht := (hs i hc).symbol name ((hk.choice_iff name i).mp hc)
    rcases h.assignable_member hc hno hv with ⟨-, rfl⟩ | ⟨h1, hle⟩
    · exact validValue_tri ht le_rfl fun _ => by omega
    · refine validValue_tri ht (by omega) fun hb => ?_
      have htype := h.type_of_m h1
      rw [symbolType_of_ne (by rw [hb]; decide), hb] at htype
      cases htype

section

variable {k : Kconfig} {level : Item → ℕ} (hk : WellFormed k) (hl : Layered k level) {depth : ℕ}
  (hdepth : ∀ x, 6 * level x + 6 ≤ depth)

include hk hl hdepth

theorem Coherent.assign_symbol {st : State} (hst : Coherent k st) {name : Text}
    (hs : ∀ i, (k.symbol name).choice = some i → Sane k i)
    (hno : Undisturbed k st.inputs (value hk hl hst.valid) name) {v : ℕ}
    (hv : v ∈ value hk hl hst.valid (.assignable (.sym (.var name)))) :
    ∃ st' env', Menu.step k depth st (.setValue name (.tri v)) = some st' ∧
      Shows k depth st' env' ∧ triIn env' (.var name) = v := by
  obtain ⟨-, h⟩ := hst.shows hk hl hdepth
  obtain ⟨st', hset, hst'⟩ := hst.setValue hk hl name (.tri v)
  have hinputs := setValue_inputs hst.valid (h.assignable_valid hs hk hno hv) hset
  have hval : ∀ u, u = st.inputs.assign k name (.tri v) → ∀ hu : u.Valid k,
      triIn (value hk hl hu) (.var name) = v := by
    rintro _ rfl hu
    cases hc : (k.symbol name).choice with
    | none =>
      have hassign : st.inputs.assign k name (.tri v) =
          st.inputs.setValue name (some (.tri v)) := by
        simp only [Inputs.assign, hc]
      revert hu
      rw [hassign]
      exact assign_plain hk hl hst.valid hc hno hv
    | some i => exact assign_member hk hl hst.valid (hs i hc) hc hno hv hu
  exact ⟨st', _, hset, (hst'.shows hk hl hdepth).1, hval _ hinputs hst'.valid⟩

theorem Coherent.assign_mode {st : State} (hst : Coherent k st) {i : ℕ}
    (ht : (k.choice i).origType = .bool ∨ (k.choice i).origType = .tristate) {v : ℕ}
    (hv : v ∈ value hk hl hst.valid (.assignable (.choice i))) :
    ∃ st' env', Menu.step k depth st (.setChoice i (.tri v)) = some st' ∧
      Shows k depth st' env' ∧ modeIn k st' env' i = v := by
  obtain ⟨-, h⟩ := hst.shows hk hl hdepth
  obtain ⟨st', hset, hst'⟩ := hst.setChoice hk hl i (.tri v)
  obtain ⟨hle, hne, -⟩ := h.assignable_choice hv
  have hvalid : validValue (k.choice i).origType (.tri v) = some (.tri v) :=
    validValue_tri ht hle fun hb => hne (by rw [choiceType_of_ne (by rw [hb]; decide), hb])
  have hinputs := setChoice_inputs ht hvalid hset
  have hval : ∀ u, u = st.inputs.setMode i (some v) → ∀ hu : u.Valid k,
      (choiceTri k u i).value (value hk hl hu) = v := by
    rintro _ rfl hu
    exact assign_choice hk hl hst.valid hv hu
  exact ⟨st', _, hset, (hst'.shows hk hl hdepth).1, hval _ hinputs hst'.valid⟩

/-- After any operations each value that is listed for a symbol, and each mode that is
listed for a choice, is what is read after it has been set. -/
theorem assignable_after_run (ops : List Op) :
    ∃ st env, run k depth initial ops = some st ∧ Shows k depth st env ∧
      (∀ name, (∀ i, (k.symbol name).choice = some i → Sane k i) →
        Undisturbed k st.inputs env name → ∀ v ∈ env (.assignable (.sym (.var name))),
        ∃ st' env', step k depth st (.setValue name (.tri v)) = some st' ∧
          Shows k depth st' env' ∧ triIn env' (.var name) = v) ∧
      ∀ i, (k.choice i).origType = .bool ∨ (k.choice i).origType = .tristate →
        ∀ v ∈ env (.assignable (.choice i)),
        ∃ st' env', step k depth st (.setChoice i (.tri v)) = some st' ∧
          Shows k depth st' env' ∧ modeIn k st' env' i = v := by
  obtain ⟨st, hrun, hst⟩ := coherent_initial.run hk hl hdepth ops
  refine ⟨st, value hk hl hst.valid, hrun, (hst.shows hk hl hdepth).1, ?_, ?_⟩
  · intro name hs hno v hv
    exact hst.assign_symbol hk hl hdepth hs hno hv
  · intro i ht v hv
    exact hst.assign_mode hk hl hdepth ht hv

end

/-- What is read after one symbol of the choice has been set: y can still be set for another. -/
theorem reads_book {st : State} {env : Env}
    (hrun : run bookKconfig 24 initial [.setValue "BOOK_BLFS".toList (.str ['y'])] = some st)
    (hshows : Shows bookKconfig 24 st env) :
    env (.assignable (.sym (.var "BOOK_LFS".toList))) = [2] ∧
      triIn env (.const "n".toList) = 0 := by
  have hreads : ((run bookKconfig 24 initial [.setValue "BOOK_BLFS".toList (.str ['y'])]).bind
      fun st => (Memo.read (compute bookKconfig st.inputs) 24
        (.assignable (.sym (.var "BOOK_LFS".toList))) st.cache).map Prod.fst) = some [2] ∧
      ((run bookKconfig 24 initial [.setValue "BOOK_BLFS".toList (.str ['y'])]).bind
        fun st => (Memo.read (compute bookKconfig st.inputs) 24
          (.tri (.const "n".toList)) st.cache).map fun v => v.1.1) = some 0 := by
    decide +kernel
  obtain ⟨c, hc⟩ := hshows (.assignable (.sym (.var "BOOK_LFS".toList)))
  obtain ⟨d, hd⟩ := hshows (.tri (.const "n".toList))
  rw [hrun, Option.bind_some, hc, Option.bind_some, hd] at hreads
  exact ⟨Option.some.inj hreads.1, Option.some.inj hreads.2⟩

theorem undisturbed_book {u : Inputs} {env : Env} (h : triIn env (.const "n".toList) = 0) :
    Undisturbed bookKconfig u env "BOOK_LFS".toList := by
  have hrev : (bookKconfig.symbol "BOOK_LFS".toList).revDep = .n ∧
      (bookKconfig.symbol "BOOK_LFS".toList).weakRevDep = .n := by decide
  have hn : (exprValue bookKconfig u .n).value env = 0 := h
  constructor
  · rw [hrev.1, hrev.2, hn]
    exact fun _ hm => Nat.zero_ne_one hm.1
  · rw [hrev.1, hrev.2, hn]
    exact fun _ _ => ⟨rfl, Nat.zero_ne_add_one 1⟩

theorem assignable_after_run_book :
    ∃ st env, run bookKconfig 24 initial [.setValue "BOOK_BLFS".toList (.str ['y'])] = some st ∧
      Shows bookKconfig 24 st env ∧
      env (.assignable (.sym (.var "BOOK_LFS".toList))) = [2] ∧
      (∃ st' env', step bookKconfig 24 st (.setValue "BOOK_LFS".toList (.tri 2)) = some st' ∧
        Shows bookKconfig 24 st' env' ∧ triIn env' (.var "BOOK_LFS".toList) = 2) ∧
      ∀ v ∈ env (.assignable (.choice 0)),
        ∃ st' env', step bookKconfig 24 st (.setChoice 0 (.tri v)) = some st' ∧
          Shows bookKconfig 24 st' env' ∧ modeIn bookKconfig st' env' 0 = v := by
  obtain ⟨st, env, hrun, hshows, hsymbol, hchoice⟩ :=
    assignable_after_run wellFormed_book layered_book depth_book
      [.setValue "BOOK_BLFS".toList (.str ['y'])]
  obtain ⟨hlist, hn⟩ := reads_book hrun hshows
  have hsane : ∀ i, (bookKconfig.symbol "BOOK_LFS".toList).choice = some i →
      Sane bookKconfig i := by
    intro i hi
    have hzero : (bookKconfig.symbol "BOOK_LFS".toList).choice = some 0 := by decide
    rw [hzero] at hi
    obtain rfl := Option.some.inj hi
    exact sane_book
  exact ⟨st, env, hrun, hshows, hlist,
    hsymbol _ hsane (undisturbed_book hn) 2 (by rw [hlist]; exact List.mem_singleton.mpr rfl),
    hchoice 0 (.inl (by decide))⟩

end HaoosLfs.Menu
