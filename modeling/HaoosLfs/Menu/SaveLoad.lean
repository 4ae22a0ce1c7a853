import HaoosLfs.Menu.RoundTrip

/-!
# Saving and loading (`kconfiglib.py:1395-1480`, `menuconfig.py:706-741`)

A file that is saved after any operations holds the values that the user interface shows.
When it is loaded after any other operations the same values are shown, and menuconfig asks
to save again only where a number without a value was written.
-/

namespace HaoosLfs.Menu
open Memo

section

variable (k : Kconfig)

def execute {β : Type} (depth : ℕ) (p : Prog β) (st : State) : Option (β × State) :=
  (p.exec (Memo.read (compute k st.inputs) depth) st.cache).map fun r =>
    (r.1, { st with cache := r.2 })

/-- `write_config`: what is in the file then. -/
def writeConfig {ι : Type} [DecidableEq ι] (t : MenuTree ι) (depth fuel : ℕ) (st : State) :
    Option (Text × State) :=
  (execute k depth (configContents k st.inputs t defaultHeader fuel) st).bind fun r =>
    r.1.map fun text => (text, r.2)

def symbolOutdated (u : Inputs) (name : Text) : Prog Bool :=
  match u.userValue name with
  | none => do
    let s ← symbolString k name
    pure (decide (s ≠ []))
  | some v =>
    if isTri (k.symbol name).origType then do
      let val ← triOf (.var name)
      pure (decide (UserValue.tri val ≠ v))
    else do
      let val ← strOf (.var name)
      pure (decide (UserValue.str val ≠ v))

def anyOutdated (u : Inputs) : List Text → Prog Bool
  | [] => pure false
  | name :: rest => do
    let outdated ← symbolOutdated k u name
    if outdated then pure true else anyOutdated u rest

/-- `_load_config` of menuconfig, for a file that exists: whether it asks to save. -/
def openConfig (depth : ℕ) (text : Text) (st : State) : Option (Bool × State) :=
  (loadConfig k text st).bind fun r =>
    if r.2 ≠ [] then some (true, r.1)
    else execute k depth (anyOutdated k r.1.inputs (k.syms.map Prod.fst)) r.1

end

/-! ### The same inputs, or others with the same modes -/

section

variable {k : Kconfig} {u u' : Inputs} {env : Env} {ι : Type} {t : MenuTree ι}

theorem SameModeValues.enterNode (h : SameModeValues k u u' env) (w : Writer) (v : ι) :
    (enterNode k u' t w v).value env = (enterNode k u t w v).value env := by
  unfold Menu.enterNode
  split
  · rfl
  · rw [Comp.value_bind, Comp.value_bind, h.exprValue]
    split_ifs
    · rfl
    · rw [Comp.value_bind, Comp.value_bind, h.exprValue]
    · rfl
    · rfl

variable [DecidableEq ι]

theorem SameModeValues.leaveNode (h : SameModeValues k u u' env) (w : Writer) (v : ι) :
    (leaveNode k u' t w v).value env = (leaveNode k u t w v).value env := by
  unfold Menu.leaveNode
  split_ifs
  · rw [Comp.value_bind, Comp.value_bind, h.exprValue]
    split_ifs
    · rfl
    · rw [Comp.value_bind, Comp.value_bind, h.exprValue]
  · rfl

theorem SameModeValues.writeMoves (h : SameModeValues k u u' env) (ms : List (Move ι))
    (w : Writer) : (ms.foldlM (writeMove k u' t) w).value env =
      (ms.foldlM (writeMove k u t) w).value env := by
  induction ms generalizing w with
  | nil => rfl
  | cons m ms ih =>
    have hm : (writeMove k u' t w m).value env = (writeMove k u t w m).value env := by
      cases m with
      | enter v => exact h.enterNode w v
      | leave v => exact h.leaveNode w v
    rw [List.foldlM_cons, List.foldlM_cons, Comp.value_bind, Comp.value_bind, hm, ih]

theorem SameModeValues.configContents (h : SameModeValues k u u' env) (header : Text) (fuel : ℕ) :
    (configContents k u' t header fuel).value env =
      (configContents k u t header fuel).value env := by
  unfold Menu.configContents
  split
  · rw [Comp.value_bind, Comp.value_bind, h.writeMoves]
  · rfl

end

/-! ### What is shown -/

section

variable {k : Kconfig} {level : Item → ℕ} {depth : ℕ} {st : State} {env : Env}

theorem Shows.unique {env' : Env} (h : Shows k depth st env) (h' : Shows k depth st env') :
    env = env' := by
  funext s
  obtain ⟨c, hc⟩ := h s
  obtain ⟨c', hc'⟩ := h' s
  rw [hc] at hc'
  exact congrArg Prod.fst (Option.some.inj hc')

variable (hk : WellFormed k) (hl : Layered k level) (hdepth : ∀ x, 6 * level x + 6 ≤ depth)

include hk hl hdepth

theorem Coherent.solves (h : Coherent k st) (hshows : Shows k depth st env) :
    Solves k st.inputs env := by
  obtain ⟨hs, hsolves⟩ := h.shows hk hl hdepth
  rwa [hshows.unique hs]

theorem Coherent.shows_iff (h : Coherent k st) :
    Shows k depth st env ↔ ∀ s, env s = (compute k st.inputs s).value env := by
  refine ⟨fun hshows => (h.solves hk hl hdepth hshows).eq, fun heq => ?_⟩
  have hval : env = value hk hl h.valid :=
    funext fun s => solution_unique (ranked hk hl h.valid) heq s
  rw [hval]
  exact (h.shows hk hl hdepth).1

theorem Coherent.execute (h : Coherent k st) (hshows : Shows k depth st env) {β : Type}
    (p : Prog β) : ∃ st', execute k depth p st = some (p.value env, st') ∧ Coherent k st' ∧
      st'.inputs = st.inputs ∧ Shows k depth st' env := by
  have hval : env = value hk hl h.valid := hshows.unique (h.shows hk hl hdepth).1
  obtain ⟨c, hexec, hc, -⟩ := exec_spec (ranked hk hl h.valid)
    (fun s c hs hrank => read_spec (ranked hk hl h.valid) hs hrank) (p := p) h.settled
    fun s _ => rank_lt hdepth s
  have hst' : Coherent k { st with cache := c } := ⟨h.valid, hc⟩
  refine ⟨{ st with cache := c }, ?_, hst', rfl, ?_⟩
  · rw [Menu.execute, hexec, hval]
    rfl
  · rw [hst'.shows_iff hk hl hdepth]
    exact (h.shows_iff hk hl hdepth).mp hshows

theorem coherent_of_run {ops : List Op} (hrun : run k depth initial ops = some st) :
    Coherent k st := by
  obtain ⟨st', hrun', hst'⟩ := coherent_initial.run hk hl hdepth ops
  rwa [Option.some.inj (hrun.symm.trans hrun')]

end

/-! ### Whether menuconfig asks to save -/

section

variable {k : Kconfig} {u u' : Inputs} {env : Env}

/-- A value that is written, and that `set_value` refuses. -/
def Refused (k : Kconfig) (env : Env) (name : Text) : Prop :=
  (strIn env name).2 = true ∧
    validValue (k.symbol name).origType (.str (strIn env name).1) = none

theorem configString_eq_nil {name : Text} {type : SymbolType} {val : Text × Bool} :
    configString name type val = [] ↔ val.2 = false := by
  constructor
  · intro h
    by_contra hflag
    unfold configString at h
    rw [Bool.not_eq_false] at hflag
    simp only [hflag, Bool.not_true, Bool.false_eq_true, if_false] at h
    split_ifs at h <;> simp at h
  · intro h
    rw [configString, h]
    rfl

theorem anyOutdated_value (names : List Text) :
    (anyOutdated k u names).value env = names.any fun name =>
      (symbolOutdated k u name).value env := by
  induction names with
  | nil => rfl
  | cons name rest ih =>
    rw [anyOutdated, Comp.value_bind, List.any_cons]
    cases (symbolOutdated k u name).value env with
    | false => exact ih
    | true => rfl

variable (h : Solves k u env)

include h

theorem Solves.not_refused {name : Text} (ht : (k.symbol name).origType ≠ .int)
    (ht' : (k.symbol name).origType ≠ .hex) : ¬ Refused k env name := by
  rintro ⟨hflag, hnone⟩
  have hunknown := h.type_of_written hflag
  have htri : ¬ isTri (k.symbol name).origType := by
    intro htri
    rw [h.valid_of_isTri htri] at hnone
    cases hnone
  generalize (k.symbol name).origType = type at *
  cases type with
  | unknown => exact hunknown rfl
  | bool => exact htri rfl
  | tristate => exact htri rfl
  | string => cases hnone
  | int => exact ht rfl
  | hex => exact ht' rfl

theorem Loaded.symbolOutdated (hl : Loaded k u env u') (name : Text) :
    (symbolOutdated k u' name).value env = true ↔ Refused k env name := by
  have hstr : (symbolString k name).value env =
      configString name (k.symbol name).origType (strIn env name) := rfl
  unfold Menu.symbolOutdated Refused
  rw [hl.value, loadedValue, written]
  by_cases hflag : (strIn env name).2 = true
  · rw [if_pos hflag, Option.bind_some]
    dsimp only
    cases hv : validValue (k.symbol name).origType (.str (strIn env name).1) with
    | none =>
      dsimp only
      rw [Comp.value_bind, Comp.value_pure, hstr, decide_eq_true_iff, ne_eq, configString_eq_nil]
      simp [hflag]
    | some w =>
      have hnot : (if isTri (k.symbol name).origType then (do
            let val ← triOf (.var name)
            pure (decide (UserValue.tri val ≠ w)) : Prog Bool)
          else (do
            let val ← strOf (.var name)
            pure (decide (UserValue.str val ≠ w)))).value env = false := by
        by_cases ht : isTri (k.symbol name).origType
        · have hw : w = .tri (triIn env (.var name)) :=
            Option.some.inj (hv.symm.trans (h.valid_of_isTri ht))
          have htri : (triOf (.var name)).value env = triIn env (.var name) := rfl
          rw [if_pos ht, Comp.value_bind, Comp.value_pure, htri, hw]
          simp
        · have hw := validValue_of_not_isTri (Bool.not_eq_true _ ▸ ht) hv
          have hval : (strOf (.var name)).value env = (strIn env name).1 := rfl
          rw [if_neg ht, Comp.value_bind, Comp.value_pure, hval, hw]
          simp
      dsimp only
      rw [hnot]
      simp
  · rw [if_neg hflag]
    dsimp only [Option.bind_none]
    rw [Comp.value_bind, Comp.value_pure, hstr, decide_eq_true_iff, ne_eq, configString_eq_nil]
    simp [hflag]

end

/-! ### The menus of the book -/

def bookNode (v : ℕ) : MenuNode :=
  match v with
  | 1 => ⟨.menu, "BOOK Settings".toList, .y, .y⟩
  | 2 => ⟨.choice 0, "Use BOOK".toList, .y, .y⟩
  | 3 => ⟨.symbol "BOOK_LFS".toList, "Linux From Scratch System V".toList, .y, .y⟩
  | 4 => ⟨.symbol "BOOK_LFS_SYSD".toList, "Linux From Scratch systemd".toList, .y, .y⟩
  | 5 => ⟨.symbol "BOOK_BLFS".toList, "Beyond Linux From Scratch (see help)".toList, .y, .y⟩
  | 6 => ⟨.choice 1, "Init system".toList, .sym "BOOK_BLFS".toList, .y⟩
  | 7 => ⟨.symbol "BLFS_SYSV".toList, "BLFS SysV".toList, .y, .y⟩
  | 8 => ⟨.symbol "BLFS_SYSD".toList, "BLFS systemd".toList, .y, .y⟩
  | 9 => ⟨.symbol "INITSYS".toList, [], .y, .y⟩
  | _ => ⟨.menu, "Main menu".toList, .y, .y⟩

/-- The menu tree of `bookKconfig`; the top node is 0. -/
def bookTree : MenuTree ℕ where
  nodes := bookNode
  links :=
    { parent := fun v => match v with
        | 1 => some 0 | 2 | 6 | 9 => some 1 | 3 | 4 | 5 => some 2 | 7 | 8 => some 6 | _ => none
      children := fun v => match v with
        | 0 => some 1 | 1 => some 2 | 2 => some 3 | 6 => some 7 | _ => none
      next := fun v => match v with
        | 2 => some 6 | 3 => some 4 | 4 => some 5 | 6 => some 9 | 7 => some 8 | _ => none }
  topNode := 0
  tree := .node 1 (.node 2 (.node 3 .nil (.node 4 .nil (.node 5 .nil .nil)))
    (.node 6 (.node 7 .nil (.node 8 .nil .nil)) (.node 9 .nil .nil))) .nil
  linked := by simp [Links.Holds]
  topParent := rfl
  topNext := rfl

def bookOps : List Op := [.setValue "BOOK_BLFS".toList (.str ['y'])]

theorem lists_book : bookTree.Lists bookKconfig := by decide +kernel

theorem fuel_book : 2 * bookTree.tree.size + 3 ≤ 21 := by decide

theorem initsys_book {st : State} {env : Env} (hrun : run bookKconfig 24 initial bookOps = some st)
    (hshows : Shows bookKconfig 24 st env) :
    strIn env "INITSYS".toList = ("sysv".toList, true) := by
  have hread : ((run bookKconfig 24 initial bookOps).bind fun st =>
      (Memo.read (compute bookKconfig st.inputs) 24 (.str (.var "INITSYS".toList)) st.cache).map
        Prod.fst) = some ("sysv".toList, true) := by
    decide +kernel
  obtain ⟨c, hc⟩ := hshows (.str (.var "INITSYS".toList))
  rw [hrun, Option.bind_some, hc] at hread
  exact Option.some.inj hread

theorem writable_book {st : State} {env : Env} (hrun : run bookKconfig 24 initial bookOps = some st)
    (hshows : Shows bookKconfig 24 st env) : Writable bookKconfig bookTree env := by
  refine ⟨by decide +kernel, ?_, ?_⟩
  · intro name hname _ htri
    have hinit : ∀ name ∈ bookKconfig.syms.map Prod.fst,
        ¬ isTri (bookKconfig.symbol name).origType → name = "INITSYS".toList := by
      decide +kernel
    obtain rfl := hinit name hname htri
    rw [initsys_book hrun hshows]
    decide +kernel
  · have hmenu : ∀ v ∈ bookTree.tree.preorder, (bookTree.nodes v).item = .menu ∨
        (bookTree.nodes v).item = .comment →
          (bookTree.nodes v).prompt = "BOOK Settings".toList := by
      decide +kernel
    intro v hv hitem
    rw [hmenu v hv hitem]
    exact ⟨silent_of_comment (by decide +kernel) (by decide +kernel) (by decide +kernel)
        (by decide +kernel),
      silent_of_comment (by decide +kernel) (by decide +kernel) (by decide +kernel)
        (by decide +kernel)⟩

theorem restorable_book {st : State} {env : Env} (hst : Coherent bookKconfig st)
    (hshows : Shows bookKconfig 24 st env) : Restorable bookKconfig st.inputs env := by
  refine (hst.solves wellFormed_book layered_book depth_book hshows).restorable ?_ (by decide)
    (by decide) (by decide)
  intro i hi
  have hlt : i < 2 := mem_items_choice.mp hi
  obtain rfl | rfl : i = 0 ∨ i = 1 := by omega
  · exact sane_book
  · exact ⟨by decide, by decide, by decide⟩

/-! ### After any operations -/

section

variable {k : Kconfig} {level : Item → ℕ} {depth : ℕ} (hk : WellFormed k) (hl : Layered k level)
  (hdepth : ∀ x, 6 * level x + 6 ≤ depth) {ι : Type} [DecidableEq ι] {t : MenuTree ι}
  (hlists : t.Lists k) {fuel : ℕ} (hfuel : 2 * t.tree.size + 3 ≤ fuel) {env : Env}
  (hw : Writable k t env)

include hk hl hdepth hlists hfuel hw

theorem Coherent.writeConfig {st : State} (h : Coherent k st) (hshows : Shows k depth st env) :
    ∃ text st', writeConfig k t depth fuel st = some (text, st') ∧ Coherent k st' ∧
      st'.inputs = st.inputs ∧ Shows k depth st' env ∧
      (configContents k st.inputs t defaultHeader fuel).value env = some text ∧
      Reads k text (k.syms.filterMap fun s => written env s.1) := by
  obtain ⟨text, htext, hreads⟩ :=
    hw.contents (h.solves hk hl hdepth hshows) hlists hfuel
  obtain ⟨st', hexec, hst', hinputs, hshows'⟩ :=
    h.execute hk hl hdepth hshows (configContents k st.inputs t defaultHeader fuel)
  refine ⟨text, st', ?_, hst', hinputs, hshows', htext, hreads⟩
  rw [Menu.writeConfig, hexec, htext]
  rfl

/-- A file that is saved after any operations holds the value of each symbol that is to be
written, in the order of the definitions, and saving changes no value. -/
theorem saved_after_run {ops : List Op} {st : State} (hrun : run k depth initial ops = some st)
    (hshows : Shows k depth st env) :
    ∃ text st', writeConfig k t depth fuel st = some (text, st') ∧ st'.inputs = st.inputs ∧
      Shows k depth st' env ∧ Reads k text (k.syms.filterMap fun s => written env s.1) := by
  obtain ⟨text, st', hwrite, -, hinputs, hshows', -, hreads⟩ :=
    (coherent_of_run hk hl hdepth hrun).writeConfig hk hl hdepth hlists hfuel hw hshows
  exact ⟨text, st', hwrite, hinputs, hshows', hreads⟩

theorem Coherent.restored {st st1 st' : State} (h : Coherent k st)
    (hshows : Shows k depth st env) (hr : Restorable k st.inputs env) (h' : Coherent k st')
    {text : Text} (hwrite : Menu.writeConfig k t depth fuel st = some (text, st1)) :
    ∃ st2, Menu.loadConfig k text st' = some (st2, []) ∧ Coherent k st2 ∧
      Loaded k st.inputs env st2.inputs ∧ Shows k depth st2 env ∧
      ∃ st3, Menu.writeConfig k t depth fuel st2 = some (text, st3) := by
  have hsolves := h.solves hk hl hdepth hshows
  obtain ⟨text', st1', hwrite', -, -, -, hcontents, hreads⟩ :=
    h.writeConfig hk hl hdepth hlists hfuel hw hshows
  obtain rfl : text = text' :=
    congrArg Prod.fst (Option.some.inj (hwrite.symm.trans hwrite'))
  obtain ⟨st2, hload, hst2, hloaded⟩ := h'.loadConfig hk hl hsolves hr.sane hreads
  have hshows2 : Shows k depth st2 env :=
    (hst2.shows_iff hk hl hdepth).mpr (hloaded.compute hsolves hr hk h.valid)
  obtain ⟨text2, st3, hwrite2, -, -, -, hcontents2, -⟩ :=
    hst2.writeConfig hk hl hdepth hlists hfuel hw hshows2
  obtain rfl : text2 = text := by
    have hsame := (hloaded.sameModes hsolves hr hk).configContents (t := t) defaultHeader fuel
    rw [hcontents, hcontents2] at hsame
    exact Option.some.inj hsame
  exact ⟨st2, hload, hst2, hloaded, hshows2, st3, hwrite2⟩

/-- What is saved after any operations and loaded after any others shows the same values
again, and saving once more writes the same file. -/
theorem restored_after_run {ops : List Op} (ops' : List Op) {st : State}
    (hrun : run k depth initial ops = some st) (hshows : Shows k depth st env)
    (hr : Restorable k st.inputs env) :
    ∃ text st1, writeConfig k t depth fuel st = some (text, st1) ∧
      ∃ st', run k depth initial ops' = some st' ∧
        ∃ st2, loadConfig k text st' = some (st2, []) ∧ Shows k depth st2 env ∧
          ∃ st3, writeConfig k t depth fuel st2 = some (text, st3) := by
  have h := coherent_of_run hk hl hdepth hrun
  obtain ⟨text, st1, hwrite, -⟩ := h.writeConfig hk hl hdepth hlists hfuel hw hshows
  obtain ⟨st', hrun', h'⟩ := coherent_initial.run hk hl hdepth ops'
  obtain ⟨st2, hload, -, -, hshows2, hagain⟩ :=
    h.restored hk hl hdepth hlists hfuel hw hshows hr h' hwrite
  exact ⟨text, st1, hwrite, st', hrun', st2, hload, hshows2, hagain⟩

/-- After a file that menuconfig has saved is opened, menuconfig asks to save again if and
only if a number that is no number was written. -/
theorem asks_after_open {ops : List Op} (ops' : List Op) {st : State}
    (hrun : run k depth initial ops = some st) (hshows : Shows k depth st env)
    (hr : Restorable k st.inputs env) :
    ∃ text st1 st' asks st2, writeConfig k t depth fuel st = some (text, st1) ∧
      run k depth initial ops' = some st' ∧ openConfig k depth text st' = some (asks, st2) ∧
      Shows k depth st2 env ∧
      (asks = true ↔ ∃ name ∈ k.syms.map Prod.fst,
        ((k.symbol name).origType = .int ∨ (k.symbol name).origType = .hex) ∧
          Refused k env name) := by
  have h := coherent_of_run hk hl hdepth hrun
  have hsolves := h.solves hk hl hdepth hshows
  obtain ⟨text, st1, hwrite, -⟩ := h.writeConfig hk hl hdepth hlists hfuel hw hshows
  obtain ⟨st', hrun', h'⟩ := coherent_initial.run hk hl hdepth ops'
  obtain ⟨st2, hload, hst2, hloaded, hshows2, -⟩ :=
    h.restored hk hl hdepth hlists hfuel hw hshows hr h' hwrite
  obtain ⟨st3, hexec, -, -, hshows3⟩ := hst2.execute hk hl hdepth hshows2
    (anyOutdated k st2.inputs (k.syms.map Prod.fst))
  refine ⟨text, st1, st', (anyOutdated k st2.inputs (k.syms.map Prod.fst)).value env, st3, hwrite,
    hrun', ?_, hshows3, ?_⟩
  · rw [openConfig, hload, Option.bind_some, if_neg (not_not.mpr rfl)]
    exact hexec
  · rw [anyOutdated_value, List.any_eq_true]
    constructor
    · intro hany
      obtain ⟨name, hname, hout⟩ := hany
      have href := (hloaded.symbolOutdated hsolves name).mp hout
      refine ⟨name, hname, ?_, href⟩
      by_contra hnum
      rw [not_or] at hnum
      exact hsolves.not_refused hnum.1 hnum.2 href
    · intro hany
      obtain ⟨name, hname, -, href⟩ := hany
      exact ⟨name, hname, (hloaded.symbolOutdated hsolves name).mpr href⟩

end

theorem saved_after_run_book :
    ∃ st env text st', run bookKconfig 24 initial bookOps = some st ∧
      writeConfig bookKconfig bookTree 24 21 st = some (text, st') ∧ st'.inputs = st.inputs ∧
      Shows bookKconfig 24 st' env ∧
      Reads bookKconfig text (bookKconfig.syms.filterMap fun s => written env s.1) := by
  obtain ⟨st, hrun, hst⟩ := coherent_initial.run wellFormed_book layered_book depth_book bookOps
  have hshows := (hst.shows wellFormed_book layered_book depth_book).1
  obtain ⟨text, st', h⟩ := saved_after_run wellFormed_book layered_book depth_book lists_book
    fuel_book (writable_book hrun hshows) hrun hshows
  exact ⟨st, _, text, st', hrun, h⟩

theorem restored_after_run_book :
    ∃ st env text st1 st' st2 st3, run bookKconfig 24 initial bookOps = some st ∧
      Shows bookKconfig 24 st env ∧ writeConfig bookKconfig bookTree 24 21 st = some (text, st1) ∧
      run bookKconfig 24 initial [.setValue "BOOK_LFS".toList (.str ['y'])] = some st' ∧
      loadConfig bookKconfig text st' = some (st2, []) ∧ Shows bookKconfig 24 st2 env ∧
      writeConfig bookKconfig bookTree 24 21 st2 = some (text, st3) := by
  obtain ⟨st, hrun, hst⟩ := coherent_initial.run wellFormed_book layered_book depth_book bookOps
  have hshows := (hst.shows wellFormed_book layered_book depth_book).1
  obtain ⟨text, st1, hwrite, st', hrun', st2, hload, hshows2, st3, hagain⟩ :=
    restored_after_run wellFormed_book layered_book depth_book lists_book fuel_book
      (writable_book hrun hshows) [.setValue "BOOK_LFS".toList (.str ['y'])] hrun hshows
      (restorable_book hst hshows)
  exact ⟨st, _, text, st1, st', st2, st3, hrun, hshows, hwrite, hrun', hload, hshows2, hagain⟩

theorem asks_after_open_book :
    ∃ st env text st1 st' asks st2, run bookKconfig 24 initial bookOps = some st ∧
      writeConfig bookKconfig bookTree 24 21 st = some (text, st1) ∧
      run bookKconfig 24 initial [] = some st' ∧
      openConfig bookKconfig 24 text st' = some (asks, st2) ∧ Shows bookKconfig 24 st2 env ∧
      (asks = true ↔ ∃ name ∈ bookKconfig.syms.map Prod.fst,
        ((bookKconfig.symbol name).origType = .int ∨ (bookKconfig.symbol name).origType = .hex) ∧
          Refused bookKconfig env name) := by
  obtain ⟨st, hrun, hst⟩ := coherent_initial.run wellFormed_book layered_book depth_book bookOps
  have hshows := (hst.shows wellFormed_book layered_book depth_book).1
  obtain ⟨text, st1, st', asks, st2, h⟩ :=
    asks_after_open wellFormed_book layered_book depth_book lists_book fuel_book
      (writable_book hrun hshows) [] hrun hshows (restorable_book hst hshows)
  exact ⟨st, _, text, st1, st', asks, st2, hrun, h⟩

end HaoosLfs.Menu
