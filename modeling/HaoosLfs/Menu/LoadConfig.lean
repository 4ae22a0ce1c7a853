import HaoosLfs.Menu.Assignable
import HaoosLfs.Menu.WriteConfig

/-!
# Loading a configuration (`kconfiglib.py:1197-1352`)

`_load_config` with `replace`: the assignments of the file are passed to `set_value`, the
modes of choices are inferred from them, and what was not set loses its user value.
-/

namespace HaoosLfs.Menu
open Memo

section

variable (k : Kconfig)

/-- Before a symbol of a choice is set to m or y, the choice is. -/
def inferMode (st : State) (name val : Text) : Option State :=
  match (k.symbol name).choice with
  | some i =>
    if isTri (k.symbol name).origType ∧ val ≠ ['n'] then setChoice k st i (.str val) else some st
  | none => some st

def assignLoaded (st : State) (a : Text × Text) : Option State :=
  (inferMode k st a.1 a.2).bind fun st => setValue k st a.1 (.str a.2)

/-- A line, with the `missing_syms` so far. -/
def loadLine (r : State × List (Text × Text)) (line : Text) :
    Option (State × List (Text × Text)) :=
  match readLine k line with
  | .assign name val => (assignLoaded k r.1 (name, val)).map fun st => (st, r.2)
  | .undefined name val => some (r.1, r.2 ++ [(name, val)])
  | .other => some r

def resetMarks (st : State) : State :=
  { st with wasSet := fun x => if x ∈ k.items then false else st.wasSet x }

def unsetItem (st : State) : Item → Option State
  | .sym (.var name) => unsetValue k st name
  | .sym (.const _) => some st
  | .choice i => unsetChoice k st i

def unsetItems (st : State) (xs : List Item) : Option State :=
  xs.foldlM (fun st x => if st.wasSet x then some st else unsetItem k st x) st

/-- `_load_config`, with the `missing_syms` -/
def loadConfig (text : Text) (st : State) : Option (State × List (Text × Text)) := do
  let r ← (configLines text).foldlM (loadLine k) (resetMarks k st, [])
  let st ← unsetItems k r.1 k.items
  pure (st, r.2)

end

/-! ### Loading is a run -/

section

variable {k : Kconfig} {level : Item → ℕ} (hk : WellFormed k) (hl : Layered k level)

include hk hl

theorem Coherent.inferMode {st : State} (h : Coherent k st) (name val : Text) :
    ∃ st', inferMode k st name val = some st' ∧ Coherent k st' := by
  unfold Menu.inferMode
  split
  · split_ifs
    · exact h.setChoice hk hl _ _
    · exact ⟨st, rfl, h⟩
  · exact ⟨st, rfl, h⟩

theorem Coherent.assignLoaded {st : State} (h : Coherent k st) (a : Text × Text) :
    ∃ st', assignLoaded k st a = some st' ∧ Coherent k st' := by
  obtain ⟨st1, h1, hc1⟩ := h.inferMode hk hl a.1 a.2
  obtain ⟨st2, h2, hc2⟩ := hc1.setValue hk hl a.1 (.str a.2)
  exact ⟨st2, by rw [Menu.assignLoaded, h1]; exact h2, hc2⟩

omit hk hl in
theorem Coherent.foldlM {α : Type} {f : State → α → Option State}
    (hf : ∀ st a, Coherent k st → ∃ st', f st a = some st' ∧ Coherent k st') (as : List α)
    {st : State} (h : Coherent k st) : ∃ st', as.foldlM f st = some st' ∧ Coherent k st' := by
  induction as generalizing st with
  | nil => exact ⟨st, rfl, h⟩
  | cons a as ih =>
    obtain ⟨st1, h1, hc1⟩ := hf st a h
    obtain ⟨st2, h2, hc2⟩ := ih hc1
    exact ⟨st2, by rw [List.foldlM_cons, h1]; exact h2, hc2⟩

omit hk hl in
/-- The lines do what the assignments on them do, and no undefined symbol is noted. -/
theorem loadLines_eq {lines : List Text} {as : List (Text × Text)}
    (has : (lines.map (readLine k)).filter (· ≠ .other) = as.map fun a => .assign a.1 a.2)
    (st : State) (missing : List (Text × Text)) :
    lines.foldlM (loadLine k) (st, missing) =
      (as.foldlM (assignLoaded k) st).map fun st => (st, missing) := by
  induction lines generalizing st as with
  | nil =>
    obtain rfl : as = [] := List.map_eq_nil_iff.mp has.symm
    rfl
  | cons l lines ih =>
    rw [List.map_cons] at has
    by_cases hother : readLine k l = .other
    · rw [List.filter_cons_of_neg (by simp [hother])] at has
      rw [List.foldlM_cons, loadLine, hother]
      exact ih has st
    · rw [List.filter_cons_of_pos (by simp [hother])] at has
      obtain ⟨⟨name, val⟩, as, rfl, hl, hrest⟩ := List.map_eq_cons_iff.mp has.symm
      have hline : loadLine k (st, missing) l =
          (assignLoaded k st (name, val)).map fun st => (st, missing) := by
        rw [loadLine, ← hl]
      rw [List.foldlM_cons, List.foldlM_cons, hline]
      cases assignLoaded k st (name, val) with
      | none => rfl
      | some st1 => exact ih hrest.symm st1

end

/-! ### What an assignment leaves -/

section

variable {k : Kconfig} {st st' : State}

theorem recInvalidate_wasSet {x : Item} (h : recInvalidate k st x = some st') :
    st'.wasSet = st.wasSet := by
  obtain ⟨c, -, rfl⟩ := Option.map_eq_some_iff.mp h
  rfl

theorem recInvalidateIfHasPrompt_wasSet {name : Text}
    (h : recInvalidateIfHasPrompt k st name = some st') : st'.wasSet = st.wasSet := by
  unfold recInvalidateIfHasPrompt at h
  split_ifs at h
  · rw [Option.some.inj h]
  · exact recInvalidate_wasSet h

def marksAfter (k : Kconfig) (marks : Item → Bool) (name : Text) (v : UserValue) : Item → Bool :=
  let marks := Function.update marks (.sym (.var name)) true
  match (k.symbol name).choice, v with
  | some i, .tri 2 => Function.update marks (.choice i) true
  | _, _ => marks

theorem marksAfter_of_y {marks : Item → Bool} {name : Text} {i : ℕ}
    (hc : (k.symbol name).choice = some i) :
    marksAfter k marks name (.tri 2) =
      Function.update (Function.update marks (.sym (.var name)) true) (.choice i) true := by
  simp only [marksAfter, hc]

theorem marksAfter_of_ne {marks : Item → Bool} {name : Text} {v : UserValue}
    (h : ∀ i, (k.symbol name).choice = some i → v ≠ .tri 2) :
    marksAfter k marks name v = Function.update marks (.sym (.var name)) true := by
  unfold marksAfter
  dsimp only
  split
  · rename_i i hc
    exact absurd rfl (h i hc)
  · rfl

theorem marksAfter_apply {marks : Item → Bool} {name : Text} {v : UserValue} {i : ℕ}
    (hc : (k.symbol name).choice = some i) (x : Item) :
    marksAfter k marks name v x =
      if x = .sym (.var name) ∨ (v = .tri 2 ∧ x = .choice i) then true else marks x := by
  by_cases hv : v = .tri 2
  · subst hv
    simp only [marksAfter_of_y hc, Function.update_apply]
    split_ifs <;> simp_all
  · rw [marksAfter_of_ne fun _ _ => hv, Function.update_apply]
    simp [hv]

theorem setValue_wasSet {name : Text} {v w : UserValue}
    (hv : validValue (k.symbol name).origType v = some w) (h : setValue k st name v = some st') :
    st'.wasSet = marksAfter k st.wasSet name w := by
  dsimp only [setValue] at h
  split_ifs at h with hsame
  · obtain rfl := Option.some.inj h
    simp only [marksAfter, hsame.2]
    rfl
  · rw [hv] at h
    dsimp only at h
    by_cases hy : w = .tri 2 ∧ ∃ i, (k.symbol name).choice = some i
    · obtain ⟨rfl, i, hc⟩ := hy
      rw [marksAfter_of_y hc]
      rw [hc] at h
      exact recInvalidate_wasSet h
    · have hne : ∀ i, (k.symbol name).choice = some i → w ≠ .tri 2 :=
        fun i hc hw => hy ⟨hw, i, hc⟩
      rw [marksAfter_of_ne hne]
      split at h
      · rename_i i hc
        exact absurd rfl (hne i hc)
      · rw [recInvalidateIfHasPrompt_wasSet h]
        rfl

theorem setValue_invalid {name : Text} {v : UserValue} (hu : st.inputs.Valid k)
    (hv : validValue (k.symbol name).origType v = none) (h : setValue k st name v = some st') :
    st' = st := by
  dsimp only [setValue] at h
  split_ifs at h with hsame
  · have hval := hu.value name v hsame.1
    rw [hv] at hval
    cases hval
  · rw [hv] at h
    exact (Option.some.inj h).symm

theorem setChoice_str {i v : ℕ} {s : Text} (htype : (k.choice i).origType = .bool ∨
      (k.choice i).origType = .tristate)
    (hv : validValue (k.choice i).origType (.str s) = some (.tri v))
    (h : setChoice k st i (.str s) = some st') :
    st'.inputs = st.inputs.setMode i (some v) ∧
      st'.wasSet = Function.update st.wasSet (.choice i) true := by
  unfold setChoice at h
  split_ifs at h with hsame
  · cases hm : st.inputs.mode i <;> rw [hm] at hsame <;> cases hsame
  · rw [hv] at h
    rcases htype with ht | ht
    · rw [ht] at h
      exact ⟨recInvalidate_inputs h, recInvalidate_wasSet h⟩
    · rw [ht] at h
      exact ⟨recInvalidate_inputs h, recInvalidate_wasSet h⟩

end

/-! ### What the assignments of a written file leave -/

section

variable {k : Kconfig} {u : Inputs} {env : Env}

def loadedValue (k : Kconfig) (env : Env) (name : Text) : Option UserValue :=
  (written env name).bind fun a => validValue (k.symbol name).origType (.str a.2)

def Picked (k : Kconfig) (env : Env) (names : List Text) (i : ℕ) : Prop :=
  ∃ name ∈ names, name ∈ (k.choice i).syms ∧ triIn env (.var name) ≠ 0

theorem validValue_triToStr {type : SymbolType} {v : ℕ} (ht : type = .bool ∨ type = .tristate)
    (hle : v ≤ 2) (hb : type = .bool → v ≠ 1) :
    validValue type (.str (triToStr v)) = some (.tri v) := by
  have hv : v = 0 ∨ v = 1 ∨ v = 2 := by omega
  rcases ht with rfl | rfl
  · rcases hv with rfl | rfl | rfl
    · rfl
    · exact absurd rfl (hb rfl)
    · rfl
  · rcases hv with rfl | rfl | rfl <;> rfl

theorem validValue_of_not_isTri {type : SymbolType} {v : Text} {w : UserValue}
    (ht : isTri type = false) (hv : validValue type (.str v) = some w) : w = .str v := by
  cases type with
  | unknown => cases hv
  | bool => cases ht
  | tristate => cases ht
  | string => exact (Option.some.inj hv).symm
  | int =>
    simp only [validValue] at hv
    split_ifs at hv
    exact (Option.some.inj hv).symm
  | hex =>
    simp only [validValue] at hv
    split_ifs at hv
    exact (Option.some.inj hv).symm

variable (h : Solves k u env)

include h

theorem Solves.valid_of_isTri {name : Text} (ht : isTri (k.symbol name).origType) :
    validValue (k.symbol name).origType (.str (strIn env name).1) =
      some (.tri (triIn env (.var name))) := by
  rw [h.str_of_isTri ht]
  refine validValue_triToStr (by simpa [isTri] using ht) (h.bounded.tri _) fun hb => ?_
  exact (h.bounded (.tri (.var name))).2 (by rw [hb]; decide)

theorem Solves.written_of_member (hk : WellFormed k) {i : ℕ} (hs : Sane k i) {name : Text}
    (hname : name ∈ (k.choice i).syms) (hvis : visIn env (.sym (.var name)) ≠ 0) :
    written env name = some (name, triToStr (triIn env (.var name))) := by
  have hc := (hk.choice_iff name i).mpr hname
  have htype := hs.symbol name hname
  have htri : env (.tri (.var name)) = (choiceSymbolTri u name i).value env := by
    rw [h.eq (.tri (.var name))]
    simp only [compute, triValue, if_pos htype, hc]
  have hflag : (env (.tri (.var name))).2 = true := by
    have hv : (visibility (.sym (.var name))).value env = visIn env (.sym (.var name)) := rfl
    rw [htri, choiceSymbolTri, Comp.value_bind, hv]
    by_cases h2 : visIn env (.sym (.var name)) = 2
    · rw [if_pos h2]
      rfl
    · rw [if_neg h2, Comp.value_pure]
      exact decide_eq_true hvis
  have hstr : strIn env name =
      (triToStr (triIn env (.var name)), (env (.tri (.var name))).2) := by
    have heq : strIn env name = (strValue k u (.var name)).value env := h.eq _
    rw [heq]
    rcases htype with hb | hb <;> simp only [strValue, hb, Comp.value_bind] <;> rfl
  rw [written, hstr, hflag]
  rfl

theorem Solves.tri_zero_of_invisible (hk : WellFormed k) {i : ℕ} (hs : Sane k i) {name : Text}
    (hname : name ∈ (k.choice i).syms) (hvis : visIn env (.sym (.var name)) = 0) :
    triIn env (.var name) = 0 := by
  rw [h.tri_of_member hs hk hname, hvis]
  simp

theorem Solves.tri_eq_mode (hk : WellFormed k) {i : ℕ} (hs : Sane k i) {name : Text}
    (hname : name ∈ (k.choice i).syms) (hne : triIn env (.var name) ≠ 0) :
    triIn env (.var name) = (choiceTri k u i).value env := by
  have hle := h.tri_le_mode hs hk hname
  have hmode := h.bounded.choiceTri_le (u := u) i
  by_cases h2 : (choiceTri k u i).value env = 2
  · have hy := h.tri_of_y hs hk hname h2
    split_ifs at hy <;> omega
  · omega

/-- While the lines are read: the symbols in `names` have been, and `st0` was before. -/
structure Loading (k : Kconfig) (u : Inputs) (env : Env) (st0 : State) (names : List Text)
    (st : State) : Prop where
  coherent : Coherent k st
  value : ∀ name ∈ names, ∀ v, loadedValue k env name = some v →
    st.inputs.userValue name = some v ∧ st.wasSet (.sym (.var name)) = true
  other : ∀ name, name ∉ names ∨ loadedValue k env name = none →
    st.inputs.userValue name = st0.inputs.userValue name ∧
      st.wasSet (.sym (.var name)) = st0.wasSet (.sym (.var name))
  picked : ∀ i, Picked k env names i →
    st.inputs.mode i = some ((choiceTri k u i).value env) ∧ st.wasSet (.choice i) = true
  unpicked : ∀ i, ¬ Picked k env names i →
    st.inputs.mode i = st0.inputs.mode i ∧
      st.inputs.userSelection i = st0.inputs.userSelection i ∧
      st.wasSet (.choice i) = st0.wasSet (.choice i)
  selected : ∀ i, ∀ name ∈ names, name ∈ (k.choice i).syms → triIn env (.var name) = 2 →
    st.inputs.userSelection i = some name

omit h in
theorem picked_concat {names : List Text} {name : Text} {i : ℕ}
    (hzero : name ∈ (k.choice i).syms → triIn env (.var name) = 0) :
    Picked k env (names ++ [name]) i ↔ Picked k env names i := by
  unfold Picked
  constructor
  · rintro ⟨t, ht, hmem, hne⟩
    rcases List.mem_append.mp ht with ht | ht
    · exact ⟨t, ht, hmem, hne⟩
    · rw [List.mem_singleton.mp ht] at hmem hne
      exact absurd (hzero hmem) hne
  · rintro ⟨t, ht, hmem, hne⟩
    exact ⟨t, List.mem_append_left _ ht, hmem, hne⟩

namespace Loading

variable {st0 st st' : State} {names : List Text} {name : Text}

omit h in
theorem skip (hst : Loading k u env st0 names st) (hnone : loadedValue k env name = none)
    (hzero : ∀ i, name ∈ (k.choice i).syms → triIn env (.var name) = 0) :
    Loading k u env st0 (names ++ [name]) st where
  coherent := hst.coherent
  value t ht v hv := by
    rcases List.mem_append.mp ht with ht | ht
    · exact hst.value t ht v hv
    · rw [List.mem_singleton.mp ht, hnone] at hv
      cases hv
  other t ht := by
    refine hst.other t (ht.imp_left fun hn hmem => hn (List.mem_append_left _ hmem))
  picked i hi := hst.picked i ((picked_concat (hzero i)).mp hi)
  unpicked i hi := hst.unpicked i fun hp => hi ((picked_concat (hzero i)).mpr hp)
  selected i t ht hmem h2 := by
    rcases List.mem_append.mp ht with ht | ht
    · exact hst.selected i t ht hmem h2
    · rw [List.mem_singleton.mp ht] at hmem h2
      rw [hzero i hmem] at h2
      cases h2

omit h in
theorem plain (hst : Loading k u env st0 names st) (hst' : Coherent k st') {w : UserValue}
    (hw : loadedValue k env name = some w)
    (hzero : ∀ i, name ∈ (k.choice i).syms → triIn env (.var name) = 0)
    (hinputs : st'.inputs = st.inputs.setValue name (some w))
    (hmarks : st'.wasSet = Function.update st.wasSet (.sym (.var name)) true) :
    Loading k u env st0 (names ++ [name]) st' := by
  have hval : ∀ t, t ≠ name → st'.inputs.userValue t = st.inputs.userValue t ∧
      st'.wasSet (.sym (.var t)) = st.wasSet (.sym (.var t)) := by
    intro t ht
    rw [hinputs, hmarks]
    refine ⟨Function.update_of_ne ht _ _, Function.update_of_ne (fun heq => ht ?_) _ _⟩
    exact Sym.var.inj (Item.sym.inj heq)
  have hnew : st'.inputs.userValue name = some w ∧ st'.wasSet (.sym (.var name)) = true := by
    rw [hinputs, hmarks]
    exact ⟨Function.update_self .., Function.update_self ..⟩
  have hchoice : ∀ i, st'.inputs.mode i = st.inputs.mode i ∧
      st'.inputs.userSelection i = st.inputs.userSelection i ∧
      st'.wasSet (.choice i) = st.wasSet (.choice i) := by
    intro i
    rw [hinputs, hmarks]
    exact ⟨rfl, rfl, Function.update_of_ne (by nofun) _ _⟩
  refine ⟨hst', fun t ht v hv => ?_, fun t ht => ?_, fun i hi => ?_, fun i hi => ?_,
    fun i t ht hmem h2 => ?_⟩
  · by_cases htn : t = name
    · subst htn
      rw [← Option.some.inj (hw.symm.trans hv)]
      exact hnew
    · have hmem : t ∈ names := by simpa [htn] using ht
      rw [(hval t htn).1, (hval t htn).2]
      exact hst.value t hmem v hv
  · have htn : t ≠ name := by
      rintro rfl
      rcases ht with hn | hn
      · exact hn (by simp)
      · rw [hw] at hn
        cases hn
    rw [(hval t htn).1, (hval t htn).2]
    exact hst.other t (ht.imp_left fun hn hmem => hn (List.mem_append_left _ hmem))
  · rw [(hchoice i).1, (hchoice i).2.2]
    exact hst.picked i ((picked_concat (hzero i)).mp hi)
  · rw [(hchoice i).1, (hchoice i).2.1, (hchoice i).2.2]
    exact hst.unpicked i fun hp => hi ((picked_concat (hzero i)).mpr hp)
  · rcases List.mem_append.mp ht with ht | ht
    · rw [(hchoice i).2.1]
      exact hst.selected i t ht hmem h2
    · rw [List.mem_singleton.mp ht] at hmem h2
      rw [hzero i hmem] at h2
      cases h2

theorem member (hst : Loading k u env st0 names st) (hst' : Coherent k st') (hk : WellFormed k)
    {i : ℕ} (hs : Sane k i) (hname : name ∈ (k.choice i).syms) (hnew : name ∉ names)
    (hne : triIn env (.var name) ≠ 0)
    (hw : loadedValue k env name = some (.tri (triIn env (.var name))))
    (hvalue : st'.inputs.userValue =
      Function.update st.inputs.userValue name (some (.tri (triIn env (.var name)))))
    (hmode : st'.inputs.mode = Function.update st.inputs.mode i (some (triIn env (.var name))))
    (hsel : st'.inputs.userSelection = if triIn env (.var name) = 2 then
      Function.update st.inputs.userSelection i (some name) else st.inputs.userSelection)
    (hmarks : ∀ x, st'.wasSet x =
      if x = .sym (.var name) ∨ x = .choice i then true else st.wasSet x) :
    Loading k u env st0 (names ++ [name]) st' := by
  have hin : ∀ j, name ∈ (k.choice j).syms → j = i := by
    intro j hj
    have h1 := (hk.choice_iff name j).mpr hj
    have h2 := (hk.choice_iff name i).mpr hname
    exact Option.some.inj (h1.symm.trans h2)
  have hmem : ∀ t, t ∈ names ++ [name] ↔ t ∈ names ∨ t = name := by simp
  have hpicked : ∀ j, Picked k env (names ++ [name]) j ↔ Picked k env names j ∨ j = i := by
    intro j
    constructor
    · rintro ⟨t, ht, htm, htne⟩
      rcases (hmem t).mp ht with ht | rfl
      · exact .inl ⟨t, ht, htm, htne⟩
      · exact .inr (hin j htm)
    · rintro (⟨t, ht, htm, htne⟩ | rfl)
      · exact ⟨t, (hmem t).mpr (.inl ht), htm, htne⟩
      · exact ⟨name, (hmem name).mpr (.inr rfl), hname, hne⟩
  refine ⟨hst', fun t ht v hv => ?_, fun t ht => ?_, fun j hj => ?_, fun j hj => ?_,
    fun j t ht htm h2 => ?_⟩
  · rw [hvalue, hmarks]
    by_cases htn : t = name
    · subst htn
      rw [Function.update_self, if_pos (.inl rfl), ← Option.some.inj (hw.symm.trans hv)]
      exact ⟨rfl, rfl⟩
    · have hold := hst.value t (((hmem t).mp ht).resolve_right htn) v hv
      rw [Function.update_of_ne htn, hold.2, ite_self]
      exact ⟨hold.1, rfl⟩
  · have htn : t ≠ name := by
      rintro rfl
      rcases ht with hn | hn
      · exact hn (by simp)
      · rw [hw] at hn
        cases hn
    have hold := hst.other t (ht.imp_left fun hn h => hn ((hmem t).mpr (.inl h)))
    rw [hvalue, hmarks, Function.update_of_ne htn, if_neg (by simp [htn])]
    exact hold
  · rw [hmode, hmarks]
    by_cases hji : j = i
    · subst hji
      rw [Function.update_self, if_pos (.inr rfl), h.tri_eq_mode hk hs hname hne]
      exact ⟨rfl, rfl⟩
    · have hold := hst.picked j (((hpicked j).mp hj).resolve_right hji)
      rw [Function.update_of_ne hji, hold.2, ite_self]
      exact ⟨hold.1, rfl⟩
  · rw [hpicked, not_or] at hj
    obtain ⟨hjp, hji⟩ := hj
    obtain ⟨h1, h2, h3⟩ := hst.unpicked j hjp
    refine ⟨?_, ?_, ?_⟩
    · rw [hmode, Function.update_of_ne hji, h1]
    · rw [hsel]
      split_ifs
      · rw [Function.update_of_ne hji, h2]
      · exact h2
    · rw [hmarks, if_neg (by simp [hji]), h3]
  · rw [hsel]
    rcases (hmem t).mp ht with ht | rfl
    · have hold := hst.selected j t ht htm h2
      split_ifs with hy
      · have hji : j ≠ i := by
          rintro rfl
          have hm : (choiceTri k u j).value env = 2 := by
            rw [← h.tri_eq_mode hk hs hname hne, hy]
          have ht2 := h.tri_of_y hs hk htm hm
          have hn2 := h.tri_of_y hs hk hname hm
          rw [h2] at ht2
          rw [hy] at hn2
          split_ifs at ht2 hn2 with hc1 hc2
          have heq := Option.some.inj (hc1.2.symm.trans hc2.2)
          exact hnew (heq ▸ ht)
        rw [Function.update_of_ne hji, hold]
      · exact hold
    · rw [if_pos h2, hin j htm, Function.update_self]

variable {level : Item → ℕ} (hk : WellFormed k) (hl : Layered k level)
  (hsane : ∀ i, .choice i ∈ k.items → Sane k i)

omit h in
theorem written_eq_some {a : Text × Text} (hw : written env name = some a) :
    a = (name, (strIn env name).1) ∧ (strIn env name).2 = true := by
  unfold written at hw
  split_ifs at hw with hflag
  exact ⟨(Option.some.inj hw).symm, hflag⟩

omit h in
theorem triToStr_eq_n {v : ℕ} : triToStr v = ['n'] ↔ v = 0 := by
  unfold triToStr
  split_ifs <;> simp_all

include hk hl hsane

theorem assign_member (hst : Loading k u env st0 names st) (hnew : name ∉ names) {i : ℕ}
    (hname : name ∈ (k.choice i).syms) (hne : triIn env (.var name) ≠ 0)
    (hstr : (strIn env name).1 = triToStr (triIn env (.var name)))
    (hw : written env name = some (name, (strIn env name).1)) :
    ∃ st', assignLoaded k st (name, (strIn env name).1) = some st' ∧
      Loading k u env st0 (names ++ [name]) st' := by
  have hs := hsane i (mem_items_of_member hname)
  have hc := (hk.choice_iff name i).mpr hname
  have htype := hs.symbol name hname
  have hle : triIn env (.var name) ≤ 2 := h.bounded.tri _
  have hvalid : validValue (k.symbol name).origType (.str (strIn env name).1) =
      some (.tri (triIn env (.var name))) := by
    rw [hstr]
    refine validValue_triToStr htype hle fun hb => ?_
    exact (h.bounded (.tri (.var name))).2 (by rw [hb]; decide)
  have hmodeValid : validValue (k.choice i).origType (.str (strIn env name).1) =
      some (.tri (triIn env (.var name))) := by
    rw [hstr]
    refine validValue_triToStr hs.type hle fun hb h1 => ?_
    have hm := (hs.modules_of_m (u := u) ((h.tri_eq_mode hk hs hname hne).symm.trans h1)).1
    rw [hb] at hm
    cases hm
  obtain ⟨st1, h1, hc1⟩ := hst.coherent.setChoice hk hl i (.str (strIn env name).1)
  obtain ⟨hin1, hmarks1⟩ := setChoice_str hs.type hmodeValid h1
  obtain ⟨st2, h2, hc2⟩ := hc1.setValue hk hl name (.str (strIn env name).1)
  have hin2 := setValue_inputs hc1.valid hvalid h2
  have hmarks2 := setValue_wasSet hvalid h2
  have hinfer : inferMode k st name (strIn env name).1 = some st1 := by
    have htri : isTri (k.symbol name).origType := by simpa [isTri] using htype
    have hn : (strIn env name).1 ≠ ['n'] := by
      rw [hstr]
      exact fun heq => hne (triToStr_eq_n.mp heq)
    unfold inferMode
    rw [hc]
    dsimp only
    rw [if_pos ⟨htri, hn⟩, h1]
  refine ⟨st2, by rw [assignLoaded, hinfer]; exact h2, ?_⟩
  refine hst.member h hc2 hk hs hname hnew hne ?_ ?_ ?_ ?_ ?_
  · rw [loadedValue, hw]
    exact hvalid
  · rw [hin2, hin1]
    unfold Inputs.assign
    split <;> rfl
  · rw [hin2, hin1]
    unfold Inputs.assign
    split <;> rfl
  · rw [hin2, hin1]
    by_cases hy : triIn env (.var name) = 2
    · rw [hy, if_pos rfl, Inputs.assign_of_y hc]
      rfl
    · rw [if_neg hy, Inputs.assign_of_ne fun _ _ heq => hy (UserValue.tri.inj heq)]
      rfl
  · intro x
    rw [hmarks2, hmarks1]
    rw [marksAfter_apply hc, Function.update_apply]
    split_ifs <;> simp_all

omit h hsane in
theorem assign_other (hst : Loading k u env st0 names st)
    (hzero : ∀ i, name ∈ (k.choice i).syms → triIn env (.var name) = 0)
    (hstr : ∀ i, name ∈ (k.choice i).syms →
      (strIn env name).1 = triToStr (triIn env (.var name)))
    (hw : written env name = some (name, (strIn env name).1)) :
    ∃ st', assignLoaded k st (name, (strIn env name).1) = some st' ∧
      Loading k u env st0 (names ++ [name]) st' := by
  have hloaded : loadedValue k env name =
      validValue (k.symbol name).origType (.str (strIn env name).1) := by
    rw [loadedValue, hw]
    rfl
  have hmem : ∀ i, (k.symbol name).choice = some i → name ∈ (k.choice i).syms :=
    fun i hc => (hk.choice_iff name i).mp hc
  have hinfer : inferMode k st name (strIn env name).1 = some st := by
    unfold inferMode
    split
    · rename_i i hc
      refine if_neg fun hn => hn.2 ?_
      rw [hstr i (hmem i hc), hzero i (hmem i hc)]
      rfl
    · rfl
  obtain ⟨st2, h2, hc2⟩ := hst.coherent.setValue hk hl name (.str (strIn env name).1)
  refine ⟨st2, by rw [assignLoaded, hinfer]; exact h2, ?_⟩
  cases hval : validValue (k.symbol name).origType (.str (strIn env name).1) with
  | none =>
    rw [setValue_invalid hst.coherent.valid hval h2]
    exact hst.skip (hloaded.trans hval) hzero
  | some w =>
    have hy : ∀ i, (k.symbol name).choice = some i → w ≠ .tri 2 := by
      rintro i hc rfl
      have hn : (strIn env name).1 = ['n'] := by
        rw [hstr i (hmem i hc), hzero i (hmem i hc)]
        rfl
      rw [hn] at hval
      revert hval
      generalize (k.symbol name).origType = type
      cases type <;> decide
    refine hst.plain hc2 (hloaded.trans hval) hzero ?_ ?_
    · rw [setValue_inputs hst.coherent.valid hval h2, Inputs.assign_of_ne hy]
    · rw [setValue_wasSet hval h2, marksAfter_of_ne hy]

theorem assign (hst : Loading k u env st0 names st) (hnew : name ∉ names) :
    ∃ st', (written env name).toList.foldlM (assignLoaded k) st = some st' ∧
      Loading k u env st0 (names ++ [name]) st' := by
  have hmember : ∀ i, name ∈ (k.choice i).syms → triIn env (.var name) ≠ 0 →
      written env name = some (name, triToStr (triIn env (.var name))) := by
    intro i hname hne
    have hs := hsane i (mem_items_of_member hname)
    exact h.written_of_member hk hs hname fun hvis => hne (h.tri_zero_of_invisible hk hs hname hvis)
  have hstr : ∀ i, name ∈ (k.choice i).syms →
      (strIn env name).1 = triToStr (triIn env (.var name)) := by
    intro i hname
    refine h.str_of_isTri ?_
    simpa [isTri] using (hsane i (mem_items_of_member hname)).symbol name hname
  cases hw : written env name with
  | none =>
    refine ⟨st, rfl, hst.skip (by rw [loadedValue, hw]; rfl) fun i hname => ?_⟩
    by_contra hne
    rw [hmember i hname hne] at hw
    cases hw
  | some a =>
    obtain ⟨rfl, -⟩ := written_eq_some hw
    have hone : ∀ st', assignLoaded k st (name, (strIn env name).1) = some st' →
        (some (name, (strIn env name).1)).toList.foldlM (assignLoaded k) st = some st' := by
      intro st' hst'
      rw [Option.toList_some, List.foldlM_cons, hst']
      rfl
    by_cases hex : ∃ i, name ∈ (k.choice i).syms ∧ triIn env (.var name) ≠ 0
    · obtain ⟨i, hname, hne⟩ := hex
      obtain ⟨st', h1, h2⟩ :=
        hst.assign_member h hk hl hsane hnew hname hne (hstr i hname) hw
      exact ⟨st', hone st' h1, h2⟩
    · have hzero : ∀ i, name ∈ (k.choice i).syms → triIn env (.var name) = 0 := by
        intro i hname
        by_contra hne
        exact hex ⟨i, hname, hne⟩
      obtain ⟨st', h1, h2⟩ := hst.assign_other hk hl hzero hstr hw
      exact ⟨st', hone st' h1, h2⟩

theorem assigns (hst : Loading k u env st0 names st) {rest : List Text}
    (hnodup : (names ++ rest).Nodup) :
    ∃ st', (rest.filterMap (written env)).foldlM (assignLoaded k) st = some st' ∧
      Loading k u env st0 (names ++ rest) st' := by
  induction rest generalizing names st with
  | nil => exact ⟨st, rfl, by simpa using hst⟩
  | cons name rest ih =>
    have hnew : name ∉ names := by
      intro hmem
      exact (List.nodup_append.mp hnodup).2.2 name hmem name List.mem_cons_self rfl
    obtain ⟨st1, h1, hst1⟩ := hst.assign h hk hl hsane hnew
    rw [List.append_cons] at hnodup
    obtain ⟨st2, h2, hst2⟩ := ih hst1 hnodup
    refine ⟨st2, ?_, by rw [List.append_cons]; exact hst2⟩
    have hsplit : (name :: rest).filterMap (written env) =
        (written env name).toList ++ rest.filterMap (written env) := by
      rw [List.filterMap_cons]
      cases written env name <;> rfl
    rw [hsplit, List.foldlM_append, h1]
    exact h2

end Loading

end

/-! ### What is unset afterwards -/

def Inputs.of (u : Inputs) : Item → Option UserValue × Option ℕ × Option Text
  | .sym (.var name) => (u.userValue name, none, none)
  | .sym (.const _) => (none, none, none)
  | .choice i => (none, u.mode i, u.userSelection i)

section

variable {k : Kconfig} {level : Item → ℕ} (hk : WellFormed k) (hl : Layered k level)

theorem unsetValue_result {st st' : State} {name : Text} (h : unsetValue k st name = some st') :
    st'.inputs = st.inputs.setValue name none ∧ st'.wasSet = st.wasSet := by
  unfold unsetValue at h
  split_ifs at h with hnone
  · obtain rfl := Option.some.inj h
    rw [Inputs.setValue, ← hnone, Function.update_eq_self]
    exact ⟨rfl, rfl⟩
  · exact ⟨recInvalidateIfHasPrompt_inputs h, (recInvalidateIfHasPrompt_wasSet h).trans rfl⟩

theorem unsetChoice_result {st st' : State} {i : ℕ} (h : unsetChoice k st i = some st') :
    st'.inputs = (st.inputs.setMode i none).setSelection i none ∧ st'.wasSet = st.wasSet := by
  unfold unsetChoice at h
  split_ifs at h with hnone
  · obtain rfl := Option.some.inj h
    have hm : Function.update st.inputs.mode i none = st.inputs.mode := by
      rw [← hnone.1, Function.update_eq_self]
    have hs : Function.update st.inputs.userSelection i none = st.inputs.userSelection := by
      rw [← hnone.2, Function.update_eq_self]
    simp only [Inputs.setMode, Inputs.setSelection, hm, hs, and_self]
  · exact ⟨recInvalidate_inputs h, (recInvalidate_wasSet h).trans rfl⟩

theorem unsetItem_result {st st' : State} {x : Item} (h : unsetItem k st x = some st') :
    st'.wasSet = st.wasSet ∧ st'.inputs.of x = (none, none, none) ∧
      ∀ y ≠ x, st'.inputs.of y = st.inputs.of y := by
  cases x with
  | sym s =>
    cases s with
    | var name =>
      obtain ⟨hin, hw⟩ := unsetValue_result h
      refine ⟨hw, by rw [hin]; simp [Inputs.of, Inputs.setValue], fun y hy => ?_⟩
      rw [hin]
      cases y with
      | sym t =>
        cases t with
        | var t =>
          have hne : t ≠ name := fun heq => hy (heq ▸ rfl)
          simp [Inputs.of, Inputs.setValue, Function.update_of_ne hne]
        | const t => rfl
      | choice i => rfl
    | const name =>
      obtain rfl := Option.some.inj h
      exact ⟨rfl, rfl, fun _ _ => rfl⟩
  | choice i =>
    obtain ⟨hin, hw⟩ := unsetChoice_result h
    refine ⟨hw, by rw [hin]; simp [Inputs.of, Inputs.setMode, Inputs.setSelection], fun y hy => ?_⟩
    rw [hin]
    cases y with
    | sym t => cases t <;> rfl
    | choice j =>
      have hne : j ≠ i := fun heq => hy (heq ▸ rfl)
      simp [Inputs.of, Inputs.setMode, Inputs.setSelection, Function.update_of_ne hne]

include hk hl

theorem Coherent.unsetItem {st : State} (h : Coherent k st) (x : Item) :
    ∃ st', unsetItem k st x = some st' ∧ Coherent k st' := by
  cases x with
  | sym s =>
    cases s with
    | var name => exact h.unsetValue hk hl name
    | const name => exact ⟨st, rfl, h⟩
  | choice i => exact h.unsetChoice hk hl i

theorem Coherent.unsetItems {st : State} (h : Coherent k st) (xs : List Item) :
    ∃ st', unsetItems k st xs = some st' ∧ Coherent k st' ∧ st'.wasSet = st.wasSet ∧
      (∀ y, st.wasSet y = true ∨ y ∉ xs → st'.inputs.of y = st.inputs.of y) ∧
      ∀ y ∈ xs, st.wasSet y = false → st'.inputs.of y = (none, none, none) := by
  induction xs generalizing st with
  | nil => exact ⟨st, rfl, h, rfl, fun _ _ => rfl, nofun⟩
  | cons x xs ih =>
    by_cases hset : st.wasSet x
    · obtain ⟨st', h', hc', hw', hkeep, hunset⟩ := ih h
      refine ⟨st', ?_, hc', hw', fun y hy => ?_, fun y hy hn => ?_⟩
      · rw [Menu.unsetItems, List.foldlM_cons, if_pos hset]
        exact h'
      · exact hkeep y (hy.imp_right fun hn hmem => hn (List.mem_cons_of_mem _ hmem))
      · have hne : y ≠ x := by
          rintro rfl
          rw [hset] at hn
          cases hn
        exact hunset y (by simpa [hne] using hy) hn
    · obtain ⟨st1, h1, hc1⟩ := h.unsetItem hk hl x
      obtain ⟨hw1, hx1, hother1⟩ := unsetItem_result h1
      obtain ⟨st', h', hc', hw', hkeep, hunset⟩ := ih hc1
      refine ⟨st', ?_, hc', hw'.trans hw1, fun y hy => ?_, fun y hy hn => ?_⟩
      · rw [Menu.unsetItems, List.foldlM_cons, if_neg hset, h1]
        exact h'
      · have hne : y ≠ x := by
          rintro rfl
          exact hy.elim hset fun hn => hn List.mem_cons_self
        rw [hkeep y (by rw [hw1]; exact hy.imp_right fun hn hm => hn (List.mem_cons_of_mem _ hm)),
          hother1 y hne]
      · by_cases hmem : y ∈ xs
        · exact hunset y hmem (by rwa [hw1])
        · obtain rfl : y = x := by simpa [hmem] using hy
          rw [hkeep y (.inr hmem), hx1]

end

/-! ### What a written file restores -/

/-- The user values after the values `env` have been written and loaded. -/
structure Loaded (k : Kconfig) (u : Inputs) (env : Env) (u' : Inputs) : Prop where
  value : ∀ name, u'.userValue name = loadedValue k env name
  picked : ∀ i, ∀ name ∈ (k.choice i).syms, triIn env (.var name) ≠ 0 →
    u'.mode i = some ((choiceTri k u i).value env)
  unpicked : ∀ i, (∀ name ∈ (k.choice i).syms, triIn env (.var name) = 0) →
    u'.mode i = none ∧ u'.userSelection i = none
  selected : ∀ i, ∀ name ∈ (k.choice i).syms, triIn env (.var name) = 2 →
    u'.userSelection i = some name

section

variable {k : Kconfig} {level : Item → ℕ} {u : Inputs} {env : Env} (hk : WellFormed k)
  (hl : Layered k level) (h : Solves k u env) (hsane : ∀ i, .choice i ∈ k.items → Sane k i)

include h in
theorem Solves.written_undefined {name : Text} (hname : name ∉ k.syms.map Prod.fst) :
    written env name = none := by
  rw [written, if_neg]
  intro hflag
  refine h.type_of_written hflag ?_
  rw [symbol_of_not_mem (mem_items_sym.not.mpr hname)]
  rfl

theorem Inputs.Valid.undefined {u : Inputs} (hu : u.Valid k) {name : Text}
    (hname : name ∉ k.syms.map Prod.fst) : u.userValue name = none := by
  cases hv : u.userValue name with
  | none => rfl
  | some v =>
    have hval := hu.value name v hv
    rw [symbol_of_not_mem (mem_items_sym.not.mpr hname)] at hval
    cases v <;> cases hval

include hk hl h hsane

/-- Whatever was set before, loading sets what the file holds and nothing else, and all
symbols of the file are found. -/
theorem Coherent.loadConfig {st : State} (hst : Coherent k st) {text : Text}
    (htext : Reads k text (k.syms.filterMap fun s => written env s.1)) :
    ∃ st', loadConfig k text st = some (st', []) ∧ Coherent k st' ∧ Loaded k u env st'.inputs := by
  have hreset : Coherent k (resetMarks k st) := ⟨hst.valid, hst.settled⟩
  have hstart : Loading k u env (resetMarks k st) [] (resetMarks k st) :=
    { coherent := hreset
      value := nofun
      other := fun _ _ => ⟨rfl, rfl⟩
      picked := fun i hi => by
        obtain ⟨t, ht, -⟩ := hi
        cases ht
      unpicked := fun _ _ => ⟨rfl, rfl, rfl⟩
      selected := nofun }
  have hnodup : ([] ++ k.syms.map Prod.fst).Nodup := hk.nodup
  obtain ⟨st1, h1, hst1⟩ := hstart.assigns h hk hl hsane hnodup
  rw [List.nil_append] at hst1
  have hlines : (configLines text).foldlM (loadLine k) (resetMarks k st, []) =
      some (st1, []) := by
    obtain ⟨lines, rfl, hclean, has⟩ := htext
    rw [configLines_joinLines (fun l hl => (hclean l hl).1) (fun l hl => (hclean l hl).2),
      loadLines_eq has]
    have hmapped : (k.syms.filterMap fun s => written env s.1) =
        (k.syms.map Prod.fst).filterMap (written env) := by
      rw [List.filterMap_map]
      rfl
    rw [hmapped, h1]
    rfl
  obtain ⟨st2, h2, hst2, -, hkeep, hunset⟩ := hst1.coherent.unsetItems hk hl k.items
  refine ⟨st2, ?_, hst2, ?_⟩
  · rw [Menu.loadConfig, hlines]
    simp only [Option.bind_eq_bind, Option.bind_some, h2]
    rfl
  have hmarks : ∀ x ∈ k.items, (resetMarks k st).wasSet x = false := fun x hx => if_pos hx
  have hdef : ∀ {i name}, name ∈ (k.choice i).syms → name ∈ k.syms.map Prod.fst :=
    fun hname => mem_items_sym.mp (mem_items_of_choice ((hk.choice_iff _ _).mpr hname))
  refine ⟨fun name => ?_, fun i name hname hne => ?_, fun i hzero => ?_, fun i name hname h2 => ?_⟩
  · by_cases hname : name ∈ k.syms.map Prod.fst
    · have hitem := mem_items_sym.mpr hname
      cases hv : loadedValue k env name with
      | some v =>
        obtain ⟨hval, hset⟩ := hst1.value name hname v hv
        have hof := hkeep (.sym (.var name)) (.inl hset)
        exact (congrArg Prod.fst hof).trans hval
      | none =>
        obtain ⟨-, hset⟩ := hst1.other name (.inr hv)
        have hof := hunset (.sym (.var name)) hitem (hset.trans (hmarks _ hitem))
        exact congrArg Prod.fst hof
    · rw [hst2.valid.undefined hname, loadedValue, h.written_undefined hname]
      rfl
  · obtain ⟨hmode, hset⟩ := hst1.picked i ⟨name, hdef hname, hname, hne⟩
    have hof := hkeep (.choice i) (.inl hset)
    exact (congrArg (fun p => p.2.1) hof).trans hmode
  · have hnot : ¬ Picked k env (k.syms.map Prod.fst) i := by
      rintro ⟨name, -, hname, hne⟩
      exact hne (hzero name hname)
    by_cases hi : .choice i ∈ k.items
    · obtain ⟨-, -, hset⟩ := hst1.unpicked i hnot
      have hof := hunset (.choice i) hi (hset.trans (hmarks _ hi))
      exact ⟨congrArg (fun p => p.2.1) hof, congrArg (fun p => p.2.2) hof⟩
    · refine ⟨?_, ?_⟩
      · cases hm : st2.inputs.mode i with
        | none => rfl
        | some v => exact absurd (hst2.valid.mode i v hm) hi
      · cases hs : st2.inputs.userSelection i with
        | none => rfl
        | some s => exact absurd (mem_items_of_member (hst2.valid.selection i s hs)) hi
  · have hset := (hst1.picked i ⟨name, hdef hname, hname, by omega⟩).2
    have hof := hkeep (.choice i) (.inl hset)
    have hsel := hst1.selected i name (hdef hname) hname h2
    exact (congrArg (fun p => p.2.2) hof).trans hsel

end

end HaoosLfs.Menu
