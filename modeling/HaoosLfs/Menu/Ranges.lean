import HaoosLfs.Menu.Choices

/-!
# Numbers in their ranges (`kconfiglib.py:4172-4265`)

A user value outside the active range is ignored and a default is clamped, so what is read
is in the range, whatever was set and whatever the defaults are.
-/

namespace HaoosLfs.Menu
open Memo

def numberOf (type : SymbolType) (s : Text) : ℤ := (PyInt.parseInt (typeToBase type) s).getD 0

theorem numberOf_numToStr {type : SymbolType} (h : type = .int ∨ type = .hex) (v : ℤ) :
    numberOf type (numToStr type v) = v := by
  rcases h with rfl | rfl
  · have hread := PyInt.parseInt_str v
    simp only [numberOf, numToStr, typeToBase, if_true, hread, Option.getD_some]
  · have hread := PyInt.parseInt_hex v
    have hne : ¬ SymbolType.hex = .int := by decide
    simp only [numberOf, numToStr, typeToBase, if_neg hne, hread, Option.getD_some]

theorem numberOf_clamp {type : SymbolType} (h : type = .int ∨ type = .hex) {low high : ℤ}
    (hle : low ≤ high) (val : Text) :
    low ≤ numberOf type (clamp type (some (low, high)) val) ∧
      numberOf type (clamp type (some (low, high)) val) ≤ high := by
  have hval : (PyInt.parseInt (typeToBase type) val).getD 0 = numberOf type val := rfl
  simp only [clamp, hval]
  split_ifs with hlow hhigh
  · rw [numberOf_numToStr h]
    omega
  · rw [numberOf_numToStr h]
    omega
  · omega

theorem numberOf_userNumber {type : SymbolType} {vis : ℕ} {low high : ℤ} {user : Option Text}
    {val : Text} (h : userNumber type vis (some (low, high)) user = some val) :
    low ≤ numberOf type val ∧ numberOf type val ≤ high := by
  unfold userNumber at h
  cases user with
  | none => cases h
  | some s =>
    dsimp only at h
    split_ifs at h with hcond
    obtain rfl : s = val := Option.some.inj h
    have hin := hcond.2.2
    simp only [inRange, decide_eq_true_eq] at hin
    exact hin

section

variable {k : Kconfig} {u : Inputs} {env : Env}

def activeIn (k : Kconfig) (u : Inputs) (env : Env) (name : Text) : Option (ℤ × ℤ) :=
  (activeRange k u (typeToBase (k.symbol name).origType) (k.symbol name).ranges).value env

theorem Solves.number_in_range (h : Solves k u env) {name : Text}
    (ht : (k.symbol name).origType = .int ∨ (k.symbol name).origType = .hex) {low high : ℤ}
    (hactive : activeIn k u env name = some (low, high)) (hle : low ≤ high) :
    low ≤ numberOf (k.symbol name).origType (env (.str (.var name))).1 ∧
      numberOf (k.symbol name).origType (env (.str (.var name))).1 ≤ high := by
  have hstr : (env (.str (.var name))).1 =
      ((numberValue k u name (k.symbol name)).value env).1 := by
    rw [h.eq]
    change ((strValue k u (.var name)).value env).1 = _
    rcases ht with ht | ht
    · simp only [strValue, ht, Comp.value_bind, Comp.value_pure]
    · simp only [strValue, ht, Comp.value_bind, Comp.value_pure]
  rw [hstr, numberValue, Comp.value_bind, Comp.value_bind]
  change (activeRange k u (typeToBase (k.symbol name).origType) (k.symbol name).ranges).value env =
    some (low, high) at hactive
  rw [hactive]
  cases huser : userNumber (k.symbol name).origType ((visibility (.sym (.var name))).value env)
      (some (low, high)) (u.str name) with
  | some val => exact numberOf_userNumber huser
  | none =>
    simp only [numberDefault, Comp.value_bind, Comp.value_pure]
    exact numberOf_clamp ht hle _

/-- After any operations an int or hex symbol is in its active range, whatever was set and
whatever its defaults are. -/
theorem number_after_run {level : Item → ℕ} (hk : WellFormed k) (hl : Layered k level) {depth : ℕ}
    (hdepth : ∀ x, 6 * level x + 6 ≤ depth) (ops : List Op) :
    ∃ st env, run k depth initial ops = some st ∧ Shows k depth st env ∧
      ∀ name, (k.symbol name).origType = .int ∨ (k.symbol name).origType = .hex →
        ∀ low high, activeIn k st.inputs env name = some (low, high) → low ≤ high →
          low ≤ numberOf (k.symbol name).origType (env (.str (.var name))).1 ∧
            numberOf (k.symbol name).origType (env (.str (.var name))).1 ≤ high := by
  obtain ⟨st, hrun, hst⟩ := coherent_initial.run hk hl hdepth ops
  obtain ⟨hshows, h⟩ := hst.shows hk hl hdepth
  exact ⟨st, _, hrun, hshows, fun name ht low high hactive hle => h.number_in_range ht hactive hle⟩

end

/-- CPU_NUM of `Config.in`: the bounds and the default are symbols that are not defined. -/
def cpuKconfig : Kconfig where
  syms := [("CPU_NUM".toList, ⟨.int, [.y], [(.sym "1".toList, .y)],
    [(.var "1".toList, .var "64".toList, .y)], .n, .n, .y, none, false⟩)]
  choices := []
  modules := "MODULES".toList

def cpuLevel : Item → ℕ
  | .sym (.var name) => if name = "CPU_NUM".toList then 2 else 1
  | _ => 0

theorem wellFormed_cpu : WellFormed cpuKconfig := wellFormed_of (by decide) (by decide) (by decide)

theorem layered_cpu : Layered cpuKconfig cpuLevel := by
  refine layered_of (fun name => ?_) (by decide) (by decide)
  simp only [cpuLevel]
  split_ifs <;> omega

theorem depth_cpu (x : Item) : 6 * cpuLevel x + 6 ≤ 18 := by
  have hle : cpuLevel x ≤ 2 := by
    unfold cpuLevel
    split
    · split_ifs <;> omega
    · omega
  omega

def cpuOps : List Op := [.setValue "CPU_NUM".toList (.str "100".toList)]

theorem active_cpu {st : State} {env : Env} (hrun : run cpuKconfig 18 initial cpuOps = some st)
    (hshows : Shows cpuKconfig 18 st env) :
    activeIn cpuKconfig st.inputs env "CPU_NUM".toList = some (1, 64) := by
  have hread : ∀ s v, ((run cpuKconfig 18 initial cpuOps).bind fun st =>
      (Memo.read (compute cpuKconfig st.inputs) 18 s st.cache).map Prod.fst) = some v →
      env s = v := by
    intro s v h
    obtain ⟨c, hc⟩ := hshows s
    rw [hrun, Option.bind_some, hc] at h
    exact Option.some.inj h
  have hlow : env (.str (.var "1".toList)) = ("1".toList, false) :=
    hread _ _ (by decide +kernel)
  have hhigh : env (.str (.var "64".toList)) = ("64".toList, false) :=
    hread _ _ (by decide +kernel)
  have hcond : (exprValue cpuKconfig st.inputs .y).value env = 2 := by
    have hy : env (.tri (.const "y".toList)) = (2, false) := hread _ _ (by decide +kernel)
    change (env (.tri (.const "y".toList))).1 = 2
    rw [hy]
  have hranges : (cpuKconfig.symbol "CPU_NUM".toList).ranges =
      [(.var "1".toList, .var "64".toList, .y)] := by
    decide +kernel
  have hbase : typeToBase (cpuKconfig.symbol "CPU_NUM".toList).origType = 10 := by decide +kernel
  rw [activeIn, hranges, hbase, activeRange, Comp.value_bind, hcond, if_pos (by decide)]
  change some ((PyInt.parseInt 10 (env (.str (.var "1".toList))).1).getD 0,
    (PyInt.parseInt 10 (env (.str (.var "64".toList))).1).getD 0) = some (1, 64)
  rw [hlow, hhigh]
  decide +kernel

/-- 100 is out of the range. -/
theorem number_after_run_cpu :
    ∃ st env, run cpuKconfig 18 initial cpuOps = some st ∧ Shows cpuKconfig 18 st env ∧
      activeIn cpuKconfig st.inputs env "CPU_NUM".toList = some (1, 64) ∧
      1 ≤ numberOf .int (env (.str (.var "CPU_NUM".toList))).1 ∧
      numberOf .int (env (.str (.var "CPU_NUM".toList))).1 ≤ 64 := by
  obtain ⟨st, env, hrun, hshows, h⟩ :=
    number_after_run wellFormed_cpu layered_cpu depth_cpu cpuOps
  have hactive := active_cpu hrun hshows
  have hint : (cpuKconfig.symbol "CPU_NUM".toList).origType = .int := by decide +kernel
  have hin := h "CPU_NUM".toList (.inl hint) 1 64 hactive (by decide)
  rw [hint] at hin
  exact ⟨st, env, hrun, hshows, hactive, hin⟩

end HaoosLfs.Menu
