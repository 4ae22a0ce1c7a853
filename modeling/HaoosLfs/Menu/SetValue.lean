import HaoosLfs.Menu.Cache

/-!
# Setting values (`kconfiglib.py:4415-4510, 4690-4745, 5052-5105`)

The operations that a user interface performs: reading attributes, setting and unsetting
the user values of symbols and choices. After any of them the next attribute that is read
is the one that a computation without caches gives.
-/

namespace HaoosLfs.Menu
open Memo

/-- `wasSet` is the `_was_set` of the symbols and choices. -/
structure State where
  inputs : Inputs
  cache : Cache Value
  wasSet : Item → Bool

def noInputs : Inputs := ⟨fun _ => none, fun _ => none, fun _ => none⟩

def initial : State := ⟨noInputs, fun _ => none, fun _ => false⟩

variable (k : Kconfig)

def recInvalidate (st : State) (x : Item) : Option State :=
  ((deps k).invalidate (k.items.length + 1) x st.cache).map fun c => { st with cache := c }

def recInvalidateIfHasPrompt (st : State) (name : Text) : Option State :=
  if (k.symbol name).prompts = [] then some st else recInvalidate k st (.sym (.var name))

def Inputs.setValue (u : Inputs) (name : Text) (v : Option UserValue) : Inputs :=
  { u with userValue := Function.update u.userValue name v }

def Inputs.setSelection (u : Inputs) (i : ℕ) (s : Option Text) : Inputs :=
  { u with userSelection := Function.update u.userSelection i s }

def Inputs.setMode (u : Inputs) (i : ℕ) (v : Option ℕ) : Inputs :=
  { u with mode := Function.update u.mode i v }

def markSet (st : State) (x : Item) : State :=
  { st with wasSet := Function.update st.wasSet x true }

def setValue (st : State) (name : Text) (v : UserValue) : Option State :=
  let sym := k.symbol name
  if st.inputs.userValue name = some v ∧ sym.choice = none then
    some (markSet st (.sym (.var name)))
  else
    match validValue sym.origType v with
    | none => some st
    | some v =>
      let st := markSet { st with inputs := st.inputs.setValue name (some v) } (.sym (.var name))
      match sym.choice, v with
      | some i, .tri 2 =>
        recInvalidate k (markSet { st with inputs := st.inputs.setSelection i (some name) }
          (.choice i)) (.choice i)
      | _, _ => recInvalidateIfHasPrompt k st name

def unsetValue (st : State) (name : Text) : Option State :=
  if st.inputs.userValue name = none then some st
  else recInvalidateIfHasPrompt k { st with inputs := st.inputs.setValue name none } name

def setChoice (st : State) (i : ℕ) (v : UserValue) : Option State :=
  if (st.inputs.mode i).map UserValue.tri = some v then some (markSet st (.choice i))
  else
    match (k.choice i).origType, validValue (k.choice i).origType v with
    | .bool, some (.tri v) | .tristate, some (.tri v) =>
      recInvalidate k (markSet { st with inputs := st.inputs.setMode i (some v) } (.choice i))
        (.choice i)
    | _, _ => some st

def unsetChoice (st : State) (i : ℕ) : Option State :=
  if st.inputs.mode i = none ∧ st.inputs.userSelection i = none then some st
  else
    recInvalidate k { st with inputs := (st.inputs.setMode i none).setSelection i none } (.choice i)

inductive Op where
  | read (s : Slot)
  | setValue (name : Text) (v : UserValue)
  | unsetValue (name : Text)
  | setChoice (i : ℕ) (v : UserValue)
  | unsetChoice (i : ℕ)

/-- `depth` bounds the recursion of the computations. -/
def step (depth : ℕ) (st : State) : Op → Option State
  | .read s =>
    (Memo.read (compute k st.inputs) depth s st.cache).map fun r => { st with cache := r.2 }
  | .setValue name v => setValue k st name v
  | .unsetValue name => unsetValue k st name
  | .setChoice i v => setChoice k st i v
  | .unsetChoice i => unsetChoice k st i

def run (depth : ℕ) (st : State) (ops : List Op) : Option State := ops.foldlM (step k depth) st

/-! ### What a change leaves in the cache -/

section

variable {k} {level : Item → ℕ} {u u' : Inputs} {c c' : Cache Value}

theorem settled_of_agree (hk : WellFormed k) (hc : Settled (compute k u) c)
    (h : ∀ s a, c s = some a → Agree k u u' (owner s) ∨ Fixed k s a) :
    Settled (compute k u') c := by
  intro s a hs
  rcases h s a hs with hagree | hfix
  · rw [← compute_congr hk hagree]
    exact hc s a hs
  · rw [hfix u']
    rfl

theorem settled_of_symbol (hk : WellFormed k) (hc : Settled (compute k u) c) {name : Text}
    (hsw : (deps k).Swept c (.sym (.var name))) (v : Option UserValue) :
    Settled (compute k (u.setValue name v)) c := by
  refine settled_of_agree hk hc fun s a hs => .inl ?_
  have hne : owner s ≠ .sym (.var name) := by
    intro ho
    rw [hsw.cleared s ho] at hs
    cases hs
  refine ⟨fun t ht => ?_, fun _ _ => rfl, fun _ _ => rfl⟩
  have htn : t ≠ name := by
    rintro rfl
    exact hne ht
  exact (Function.update_of_ne htn v u.userValue).symm

theorem settled_of_choice (hk : WellFormed k) (hc : Settled (compute k u) c) {i : ℕ}
    (hsw : (deps k).Swept c (.choice i)) (hmode : ∀ j ≠ i, u.mode j = u'.mode j)
    (hsel : ∀ j ≠ i, u.userSelection j = u'.userSelection j)
    (hval : ∀ name, (k.symbol name).choice ≠ some i → u.userValue name = u'.userValue name) :
    Settled (compute k u') c := by
  refine settled_of_agree hk hc fun s a hs => ?_
  have hne : owner s ≠ .choice i := by
    intro ho
    rw [hsw.cleared s ho] at hs
    cases hs
  by_cases hdep : .choice i ∈ k.depends (owner s)
  · right
    have hitem : owner s ∈ k.items := by
      rcases mem_items_of_depends hdep with h | h
      · exact h
      · cases h
    have hflag : c (.vis (owner s)) = none :=
      hsw.dependents _ (mem_dependents.mpr ⟨hitem, .inl hdep⟩)
    refine (compute_flag hc hs hitem).resolve_left ?_
    rw [hflag]
    exact Bool.noConfusion
  · left
    refine ⟨fun name ho => hval name ?_, fun j ho => hsel j ?_, fun j hj => hmode j ?_⟩
    · intro hch
      rw [ho] at hdep
      exact hdep (List.mem_append_right _ (hk.choice_dep name i hch))
    · rintro rfl
      exact hne ho
    · rintro rfl
      exact hj.elim hdep hne

theorem vis_of_no_prompt (hc : Settled (compute k u) c) {name : Text}
    (hp : (k.symbol name).prompts = []) {v : ℕ} (hv : c (.vis (.sym (.var name))) = some v) :
    v = 0 := by
  have h := hc (.vis (.sym (.var name))) v hv
  simp only [compute, symbolVisibility, hp, promptValue, promote, Comp.replay_bind,
    Comp.replay_pure, Option.bind_some, Nat.zero_ne_one, if_false] at h
  obtain ⟨hide, -, hr⟩ := Option.bind_eq_some_iff.mp h
  split_ifs at hr
  · exact (Option.some.inj hr).symm
  · exact (Option.some.inj hr).symm

theorem bind_visibility {β : Type} {x : Item} {f g : ℕ → Prog β}
    (h : ∀ v, c (.vis x) = some v → (f v).replay c = (g v).replay c) :
    (visibility x >>= f).replay c = (visibility x >>= g).replay c := by
  rw [Comp.replay_bind, Comp.replay_bind, visibility, get, Comp.replay_get]
  cases hv : c (.vis x) with
  | none => rfl
  | some v => exact h v hv

omit k in
theorem userNumber_zero (type : SymbolType) (range : Option (ℤ × ℤ)) (user : Option Text) :
    userNumber type 0 range user = none := by
  cases user <;> simp [userNumber]

theorem settled_of_no_prompt (hk : WellFormed k) (hc : Settled (compute k u) c) {name : Text}
    (hp : (k.symbol name).prompts = []) (v : Option UserValue) :
    Settled (compute k (u.setValue name v)) c := by
  intro s a hs
  by_cases ho : owner s = .sym (.var name)
  · have hm : SameModes u (u.setValue name v) (k.symbol name) := ⟨fun _ _ => rfl, fun _ _ => rfl⟩
    have hzero : ∀ v, c (.vis (.sym (.var name))) = some v → v = 0 :=
      fun v hv => vis_of_no_prompt hc hp hv
    rw [← hc s a hs]
    cases s with
    | vis x =>
      obtain rfl : x = .sym (.var name) := ho
      rw [compute, compute, hm.symbolVisibility]
    | tri t =>
      obtain rfl : t = .var name := Item.sym.inj ho
      simp only [compute, triValue]
      split_ifs
      · split
        · refine bind_visibility fun v hv => ?_
          rw [hzero v hv, hm.ownTri (.inr rfl)]
          exact congrArg _ (congrArg _ (funext hm.afterOwn)).symm
        · refine bind_visibility fun v hv => ?_
          rw [hzero v hv]
          rfl
      · rfl
    | str t =>
      obtain rfl : t = .var name := Item.sym.inj ho
      have hstr : (stringValue k (u.setValue name v) name (k.symbol name)).replay c =
          (stringValue k u name (k.symbol name)).replay c := by
        refine bind_visibility fun v hv => ?_
        rw [hzero v hv, if_neg (fun h => h.2 rfl), if_neg (fun h => h.2 rfl), hm.defaultStr]
      have hnum : (numberValue k (u.setValue name v) name (k.symbol name)).replay c =
          (numberValue k u name (k.symbol name)).replay c := by
        refine bind_visibility fun v hv => ?_
        rw [hzero v hv, hm.activeRange]
        refine congrArg (Comp.replay c) (congrArg _ (funext fun range => ?_))
        rw [userNumber_zero, userNumber_zero, hm.numberDefault]
      simp only [compute, strValue]
      split
      · rfl
      · rfl
      · rfl
      · rw [Comp.replay_bind, Comp.replay_bind, hstr]
      · rw [Comp.replay_bind, Comp.replay_bind, hnum]
      · rw [Comp.replay_bind, Comp.replay_bind, hnum]
    | assignable x =>
      obtain rfl : x = .sym (.var name) := ho
      simp only [compute, symbolAssignable, hm.revDep, hm.assignableY, hm.assignableM]
    | selection i => cases ho
  · have hagree : Agree k u (u.setValue name v) (owner s) := by
      refine ⟨fun t ht => ?_, fun _ _ => rfl, fun _ _ => rfl⟩
      have htn : t ≠ name := by
        rintro rfl
        exact ho ht
      exact (Function.update_of_ne htn v u.userValue).symm
    rw [← compute_congr hk hagree]
    exact hc s a hs

/-! ### The operations -/

structure Coherent (k : Kconfig) (st : State) : Prop where
  valid : st.inputs.Valid k
  settled : Settled (compute k st.inputs) st.cache

theorem coherent_initial : Coherent k initial where
  valid := ⟨nofun, nofun, nofun⟩
  settled := settled_empty _

theorem mem_items_of_prompts {name : Text} (h : (k.symbol name).prompts ≠ []) :
    Item.sym (.var name) ∈ k.items := by
  by_contra hn
  rw [symbol_of_not_mem hn] at h
  exact h rfl

theorem mem_items_of_origType {i : ℕ} (h : (k.choice i).origType ≠ .unknown) :
    Item.choice i ∈ k.items := by
  by_contra hi
  rw [choice_of_not_mem hi] at h
  exact h rfl

theorem recInvalidate_spec (hk : WellFormed k) (hl : Layered k level) (st : State) {x : Item}
    (hu : u.Valid k) (hc : Settled (compute k u) st.cache) (hx : x ∈ k.items) :
    ∃ c', recInvalidate k st x = some { st with cache := c' } ∧ Settled (compute k u) c' ∧
      (deps k).Swept c' x := by
  have hfuel : (deps k).flagged ((deps k).clear x st.cache) < k.items.length + 1 :=
    Nat.lt_succ_of_le Deps.flagged_le_length
  obtain ⟨c', h⟩ := Deps.invalidate_isSome (d := deps k) hx hfuel
  obtain ⟨hsweeps, hswept⟩ := Deps.invalidate_sweeps (d := deps k) hx h
  refine ⟨c', by rw [recInvalidate, h, Option.map_some], ?_, hswept⟩
  exact (tracks hk hl hu).settled hc hsweeps fun s a _ hr => hr

theorem Inputs.Valid.setValue (hu : u.Valid k) (name : Text) {v : Option UserValue}
    (hv : ∀ w ∈ v, validValue (k.symbol name).origType w = some w) :
    (u.setValue name v).Valid k := by
  refine ⟨hu.selection, hu.mode, fun t w hw => ?_⟩
  change Function.update u.userValue name v t = some w at hw
  by_cases ht : t = name
  · rw [ht, Function.update_self] at hw
    rw [ht]
    exact hv w hw
  · rw [Function.update_of_ne ht] at hw
    exact hu.value t w hw

theorem Coherent.changeValue (hk : WellFormed k) (hl : Layered k level) {st : State}
    (h : Coherent k st) (name : Text) {v : Option UserValue}
    (hv : ∀ w ∈ v, validValue (k.symbol name).origType w = some w) (w : Item → Bool) :
    ∃ st', recInvalidateIfHasPrompt k ⟨st.inputs.setValue name v, st.cache, w⟩ name = some st' ∧
      Coherent k st' := by
  unfold recInvalidateIfHasPrompt
  split_ifs with hp
  · exact ⟨_, rfl, h.valid.setValue name hv, settled_of_no_prompt hk h.settled hp v⟩
  · obtain ⟨c', hr, hc', hsw⟩ := recInvalidate_spec hk hl
      ⟨st.inputs.setValue name v, st.cache, w⟩ h.valid h.settled (mem_items_of_prompts hp)
    exact ⟨_, hr, h.valid.setValue name hv, settled_of_symbol hk hc' hsw v⟩

theorem Coherent.setValue (hk : WellFormed k) (hl : Layered k level) {st : State}
    (h : Coherent k st) (name : Text) (v : UserValue) :
    ∃ st', setValue k st name v = some st' ∧ Coherent k st' := by
  dsimp only [Menu.setValue]
  split_ifs
  · exact ⟨_, rfl, h.valid, h.settled⟩
  · cases hval : validValue (k.symbol name).origType v with
    | none => exact ⟨st, rfl, h⟩
    | some w =>
      have hw : ∀ x ∈ some w, validValue (k.symbol name).origType x = some x :=
        fun x hx => Option.some.inj hx ▸ validValue_idem hval
      have hplain := h.changeValue hk hl name hw (Function.update st.wasSet (.sym (.var name)) true)
      dsimp only
      split
      · -- a choice symbol set to y
        rename_i i hch
        have hmem : name ∈ (k.choice i).syms := (hk.choice_iff name i).mp hch
        have hitem := mem_items_of_member hmem
        obtain ⟨c', hr, hc', hsw⟩ := recInvalidate_spec hk hl (x := .choice i)
          (markSet { (markSet { st with inputs := st.inputs.setValue name (some (.tri 2)) }
            (.sym (.var name))) with
              inputs := (st.inputs.setValue name (some (.tri 2))).setSelection i (some name) }
            (.choice i)) h.valid h.settled hitem
        refine ⟨_, hr, ⟨?_, h.valid.mode, (h.valid.setValue name hw).value⟩,
          settled_of_choice hk hc' hsw ?_ ?_ ?_⟩
        · intro j s hs
          by_cases hj : j = i
          · subst hj
            have : (some name : Option Text) = some s := by
              rw [← hs]
              exact (Function.update_self j _ st.inputs.userSelection).symm
            rwa [← Option.some.inj this]
          · refine h.valid.selection j s ?_
            rw [← hs]
            exact (Function.update_of_ne hj _ st.inputs.userSelection).symm
        · exact fun _ _ => rfl
        · exact fun j hj => (Function.update_of_ne hj _ st.inputs.userSelection).symm
        · intro t ht
          have htn : t ≠ name := by
            rintro rfl
            exact ht hch
          exact (Function.update_of_ne htn _ st.inputs.userValue).symm
      · exact hplain

theorem Coherent.unsetValue (hk : WellFormed k) (hl : Layered k level) {st : State}
    (h : Coherent k st) (name : Text) :
    ∃ st', unsetValue k st name = some st' ∧ Coherent k st' := by
  unfold Menu.unsetValue
  split_ifs
  · exact ⟨st, rfl, h⟩
  · exact h.changeValue hk hl name (by simp) st.wasSet

theorem Coherent.changeChoice (hk : WellFormed k) (hl : Layered k level) {st : State}
    (h : Coherent k st) {i : ℕ} (hi : .choice i ∈ k.items) (u' : Inputs) (hu' : u'.Valid k)
    (hmode : ∀ j ≠ i, st.inputs.mode j = u'.mode j)
    (hsel : ∀ j ≠ i, st.inputs.userSelection j = u'.userSelection j)
    (hval : st.inputs.userValue = u'.userValue) (w : Item → Bool) :
    ∃ st', recInvalidate k ⟨u', st.cache, w⟩ (.choice i) = some st' ∧ Coherent k st' := by
  obtain ⟨c', hr, hc', hsw⟩ :=
    recInvalidate_spec hk hl ⟨u', st.cache, w⟩ h.valid h.settled hi
  refine ⟨_, hr, hu', settled_of_choice hk hc' hsw hmode hsel fun name _ => ?_⟩
  rw [hval]

theorem Coherent.setChoice (hk : WellFormed k) (hl : Layered k level) {st : State}
    (h : Coherent k st) (i : ℕ) (v : UserValue) :
    ∃ st', setChoice k st i v = some st' ∧ Coherent k st' := by
  have hset : ∀ (w : ℕ), (k.choice i).origType ≠ .unknown →
      ∃ st', recInvalidate k (markSet { st with inputs := st.inputs.setMode i (some w) }
        (.choice i)) (.choice i) = some st' ∧ Coherent k st' := by
    intro w ht
    have hi := mem_items_of_origType ht
    refine h.changeChoice hk hl hi (st.inputs.setMode i (some w))
      ⟨h.valid.selection, fun j x hx => ?_, h.valid.value⟩
      (fun j hj => (Function.update_of_ne hj _ st.inputs.mode).symm) (fun _ _ => rfl) rfl _
    by_cases hj : j = i
    · rwa [hj]
    · refine h.valid.mode j x ?_
      rw [← hx]
      exact (Function.update_of_ne hj _ st.inputs.mode).symm
  unfold Menu.setChoice
  split_ifs
  · exact ⟨_, rfl, h.valid, h.settled⟩
  · split
    · rename_i w ht _
      exact hset w (by rw [ht]; nofun)
    · rename_i w ht _
      exact hset w (by rw [ht]; nofun)
    · exact ⟨st, rfl, h⟩

theorem Coherent.unsetChoice (hk : WellFormed k) (hl : Layered k level) {st : State}
    (h : Coherent k st) (i : ℕ) :
    ∃ st', unsetChoice k st i = some st' ∧ Coherent k st' := by
  unfold Menu.unsetChoice
  split_ifs with hnone
  · exact ⟨st, rfl, h⟩
  · have hi : .choice i ∈ k.items := by
      cases hm : st.inputs.mode i with
      | some v => exact h.valid.mode i v hm
      | none =>
        cases hs : st.inputs.userSelection i with
        | none => exact absurd ⟨hm, hs⟩ hnone
        | some s => exact mem_items_of_member (h.valid.selection i s hs)
    refine h.changeChoice hk hl hi ((st.inputs.setMode i none).setSelection i none)
      ⟨fun j s hs => ?_, fun j v hv => ?_, h.valid.value⟩
      (fun j hj => (Function.update_of_ne hj _ st.inputs.mode).symm)
      (fun j hj => (Function.update_of_ne hj _ st.inputs.userSelection).symm) rfl _
    · by_cases hj : j = i
      · subst hj
        simp [Inputs.setSelection] at hs
      · exact h.valid.selection j s ((Function.update_of_ne hj _ _).symm.trans hs)
    · by_cases hj : j = i
      · rwa [hj]
      · exact h.valid.mode j v ((Function.update_of_ne hj _ _).symm.trans hv)

def value (hk : WellFormed k) (hl : Layered k level) (hu : u.Valid k) : (s : Slot) → Value s :=
  solution (ranked hk hl hu)

theorem rank_lt {depth : ℕ} (hdepth : ∀ x, 6 * level x + 6 ≤ depth) (s : Slot) :
    rank level s < depth := by
  have h := hdepth (owner s)
  have hs : slotRank s ≤ 5 := by
    unfold slotRank
    split <;> omega
  rw [rank]
  omega

theorem Coherent.step (hk : WellFormed k) (hl : Layered k level) {depth : ℕ}
    (hdepth : ∀ x, 6 * level x + 6 ≤ depth) {st : State} (h : Coherent k st) (op : Op) :
    ∃ st', step k depth st op = some st' ∧ Coherent k st' := by
  cases op with
  | read s =>
    obtain ⟨c', hr, hc', -, -⟩ := read_spec (ranked hk hl h.valid) h.settled (rank_lt hdepth s)
    exact ⟨{ st with cache := c' }, by rw [Menu.step, hr, Option.map_some], h.valid, hc'⟩
  | setValue name v => exact h.setValue hk hl name v
  | unsetValue name => exact h.unsetValue hk hl name
  | setChoice i v => exact h.setChoice hk hl i v
  | unsetChoice i => exact h.unsetChoice hk hl i

theorem Coherent.run (hk : WellFormed k) (hl : Layered k level) {depth : ℕ}
    (hdepth : ∀ x, 6 * level x + 6 ≤ depth) {st : State} (h : Coherent k st) (ops : List Op) :
    ∃ st', run k depth st ops = some st' ∧ Coherent k st' := by
  induction ops generalizing st with
  | nil => exact ⟨st, rfl, h⟩
  | cons op ops ih =>
    obtain ⟨st1, h1, hc1⟩ := h.step hk hl hdepth op
    obtain ⟨st2, h2, hc2⟩ := ih hc1
    refine ⟨st2, ?_, hc2⟩
    rw [Menu.run, List.foldlM_cons, h1]
    exact h2

/-- After any operations every attribute that is read has the value that it has without
caches. -/
theorem read_after_run (hk : WellFormed k) (hl : Layered k level) {depth : ℕ}
    (hdepth : ∀ x, 6 * level x + 6 ≤ depth) (ops : List Op) :
    ∃ st, run k depth initial ops = some st ∧ ∃ hu : st.inputs.Valid k,
      ∀ s, ∃ c, Memo.read (compute k st.inputs) depth s st.cache = some (value hk hl hu s, c) := by
  obtain ⟨st, hrun, hst⟩ := coherent_initial.run hk hl hdepth ops
  refine ⟨st, hrun, hst.valid, fun s => ?_⟩
  obtain ⟨c, hr, -⟩ := read_spec (ranked hk hl hst.valid) hst.settled (rank_lt hdepth s)
  exact ⟨c, hr⟩

end

/-! ### The choice of the book -/

/-- A promptless string and the symbols of a choice, as `_finalize_tree` leaves them. -/
def stringSymbol (defaults : List (Expr × Expr)) : Symbol :=
  ⟨.string, [], defaults, [], .n, .n, .y, none, false⟩

def choiceSymbol (i : ℕ) : Symbol :=
  ⟨.bool, [.item (.choice i)], [], [], .n, .n, .item (.choice i), some i, false⟩

/-- The beginning of `Config.in`. -/
def bookKconfig : Kconfig where
  syms :=
    [("BOOK_LFS".toList, choiceSymbol 0), ("BOOK_LFS_SYSD".toList, choiceSymbol 0),
      ("BOOK_BLFS".toList, choiceSymbol 0), ("BLFS_SYSV".toList, choiceSymbol 1),
      ("BLFS_SYSD".toList, choiceSymbol 1),
      ("INITSYS".toList, stringSymbol
        [(.const "sysv".toList, .or (.sym "BOOK_LFS".toList) (.sym "BLFS_SYSV".toList)),
          (.const "systemd".toList, .or (.sym "BOOK_LFS_SYSD".toList) (.sym "BLFS_SYSD".toList))])]
  choices :=
    [⟨.bool, false, [.y], [("BOOK_LFS_SYSD".toList, .y)],
        ["BOOK_LFS".toList, "BOOK_LFS_SYSD".toList, "BOOK_BLFS".toList]⟩,
      ⟨.bool, false, [.sym "BOOK_BLFS".toList], [],
        ["BLFS_SYSV".toList, "BLFS_SYSD".toList]⟩]
  modules := "MODULES".toList

def bookLevel : Item → ℕ
  | .sym (.const _) => 0
  | .sym (.var name) =>
    if name = "INITSYS".toList then 3
    else if name = "BLFS_SYSV".toList ∨ name = "BLFS_SYSD".toList then 2 else 1
  | .choice i => if i = 0 then 1 else 2

section

variable {k : Kconfig}

theorem forall_symbol {P : Text → Symbol → Prop} (hund : ∀ name, P name undefinedSymbol)
    (hdef : ∀ s ∈ k.syms, P s.1 s.2) (name : Text) : P name (k.symbol name) := by
  rw [Kconfig.symbol]
  cases h : k.syms.lookup name with
  | none => exact hund name
  | some sym =>
    obtain ⟨l, r, hsyms, -⟩ := List.lookup_eq_some_iff.mp h
    exact hdef (name, sym) (by rw [hsyms]; simp)

theorem forall_choice {P : ℕ → Choice → Prop} (hnone : ∀ i, P i noChoice)
    (hdef : ∀ c ∈ k.choices.zipIdx, P c.2 c.1) (i : ℕ) : P i (k.choice i) := by
  rw [Kconfig.choice, List.getD_eq_getElem?_getD]
  cases h : k.choices[i]? with
  | none => exact hnone i
  | some c => exact hdef (c, i) (List.mk_mem_zipIdx_iff_getElem?.mpr h)

theorem wellFormed_of (hnodup : (k.syms.map Prod.fst).Nodup)
    (hsym : ∀ s ∈ k.syms, ∀ i ∈ s.2.choice, s.1 ∈ (k.choice i).syms ∧
      .choice i ∈ exprItems s.2.directDep)
    (hchoice : ∀ c ∈ k.choices.zipIdx, (∀ name ∈ c.1.syms, (k.symbol name).choice = some c.2) ∧
      ∀ d ∈ c.1.defaults, d.1 ∈ c.1.syms) : WellFormed k := by
  have hs : ∀ name, ∀ i ∈ (k.symbol name).choice, name ∈ (k.choice i).syms ∧
      .choice i ∈ exprItems (k.symbol name).directDep :=
    forall_symbol (P := fun name sym => ∀ i ∈ sym.choice, name ∈ (k.choice i).syms ∧
      .choice i ∈ exprItems sym.directDep) (fun _ _ h => by cases h) hsym
  have hc : ∀ i, (∀ name ∈ (k.choice i).syms, (k.symbol name).choice = some i) ∧
      ∀ d ∈ (k.choice i).defaults, d.1 ∈ (k.choice i).syms :=
    forall_choice (P := fun i c => (∀ name ∈ c.syms, (k.symbol name).choice = some i) ∧
      ∀ d ∈ c.defaults, d.1 ∈ c.syms) (fun _ => ⟨by simp [noChoice], by simp [noChoice]⟩) hchoice
  exact
    { nodup := hnodup
      choice_iff := fun name i => ⟨fun h => (hs name i h).1, (hc i).1 name⟩
      choice_dep := fun name i h => (hs name i h).2
      defaults := fun i => (hc i).2 }

theorem layered_of {level : Item → ℕ}
    (hconst : ∀ name, level (.sym (.const "n".toList)) < level (.sym (.var name)))
    (hsym : ∀ s ∈ k.syms, (∀ x ∈ s.2.depends, level x < level (.sym (.var s.1)) ∨
        s.2.choice.map Item.choice = some x) ∧
      (∀ i ∈ s.2.choice, level (.sym (.var s.1)) = level (.choice i)) ∧
      (s.2.origType = .tristate → level (.sym (.var k.modules)) < level (.sym (.var s.1))))
    (hchoice : ∀ c ∈ k.choices.zipIdx, (∀ x ∈ c.1.depends, level x < level (.choice c.2)) ∧
      (c.1.origType = .tristate → level (.sym (.var k.modules)) < level (.choice c.2))) :
    Layered k level := by
  have hs : ∀ name, (∀ x ∈ (k.symbol name).depends, level x < level (.sym (.var name)) ∨
        (k.symbol name).choice.map Item.choice = some x) ∧
      (∀ i ∈ (k.symbol name).choice, level (.sym (.var name)) = level (.choice i)) ∧
      ((k.symbol name).origType = .tristate →
        level (.sym (.var k.modules)) < level (.sym (.var name))) := by
    refine forall_symbol (P := fun name sym => (∀ x ∈ sym.depends,
        level x < level (.sym (.var name)) ∨ sym.choice.map Item.choice = some x) ∧
      (∀ i ∈ sym.choice, level (.sym (.var name)) = level (.choice i)) ∧
      (sym.origType = .tristate → level (.sym (.var k.modules)) < level (.sym (.var name))))
      (fun name => ⟨fun x hx => .inl ?_, by simp [undefinedSymbol],
        by simp [undefinedSymbol]⟩) hsym
    have hxn : x = .sym (.const "n".toList) := by
      simpa [undefinedSymbol, Symbol.depends, Expr.n, Expr.const, exprItems] using hx
    rw [hxn]
    exact hconst name
  have hc : ∀ i, (∀ x ∈ (k.choice i).depends, level x < level (.choice i)) ∧
      ((k.choice i).origType = .tristate → level (.sym (.var k.modules)) < level (.choice i)) :=
    forall_choice (P := fun i c => (∀ x ∈ c.depends, level x < level (.choice i)) ∧
      (c.origType = .tristate → level (.sym (.var k.modules)) < level (.choice i)))
      (fun _ => ⟨by simp [noChoice, Choice.depends], by simp [noChoice]⟩) hchoice
  refine
    { symbol := fun name x hx => ((hs name).1 x hx).imp_right fun h => ?_
      choice := fun i => (hc i).1
      member := fun name i h => (hs name).2.1 i h
      symbolModules := fun name => (hs name).2.2
      choiceModules := fun i => (hc i).2 }
  obtain ⟨i, hi, hx⟩ := Option.map_eq_some_iff.mp h
  exact ⟨i, hx.symm, hi⟩

theorem wellFormed_book : WellFormed bookKconfig :=
  wellFormed_of (by decide) (by decide) (by decide)

theorem layered_book : Layered bookKconfig bookLevel := by
  refine layered_of (fun name => ?_) (by decide) (by decide)
  simp only [bookLevel]
  split_ifs <;> omega

end

theorem depth_book (x : Item) : 6 * bookLevel x + 6 ≤ 24 := by
  have hle : bookLevel x ≤ 3 := by
    unfold bookLevel
    split
    · omega
    · split_ifs <;> omega
    · split_ifs <;> omega
  omega

theorem read_after_run_book :
    ∃ st, run bookKconfig 24 initial
        [.read (.str (.var "INITSYS".toList)), .setValue "BOOK_LFS".toList (.str ['y'])] =
          some st ∧ ∃ hu : st.inputs.Valid bookKconfig, ∀ s, ∃ c,
      Memo.read (compute bookKconfig st.inputs) 24 s st.cache =
        some (value wellFormed_book layered_book hu s, c) :=
  read_after_run wellFormed_book layered_book depth_book _

end HaoosLfs.Menu
