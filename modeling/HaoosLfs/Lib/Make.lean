import Mathlib

/-!
# GNU make, one job at a time

A rule has a target, prerequisites and a recipe; the commands of a recipe are
joined by `&&`. `make` brings the prerequisites of a target up to date first,
then remakes the target when its file is missing or older than a prerequisite,
and gives up when a command fails. A process can also be killed between any two
steps: the next `make` starts with the files it left.
-/

namespace HaoosLfs

structure Rule (ν κ : Type) where
  target : ν
  prereqs : List ν
  recipe : List κ

abbrev Rules (ν κ : Type) := List (Rule ν κ)

namespace Make

inductive Phase (ν κ : Type) where
  | checking (pending : List ν)
  | running (rest : List κ)
  | executing (c : κ) (rest : List κ)

structure Frame (ν κ : Type) where
  target : ν
  old : Bool
  phase : Phase ν κ

inductive Event (ν κ : Type) where
  | started (target : ν) (c : κ)
  | finished (target : ν) (c : κ)
  deriving DecidableEq

/-- `updated` and `stack` belong to the running process, the files outlive it. The
log is kept newest first. -/
structure State (ν κ : Type) where
  files : ν → Option ℕ
  clock : ℕ
  updated : List ν
  stack : List (Frame ν κ)
  log : List (Event ν κ)

/-- What happens next: a new process for a goal, or the running one takes a step,
in which a command it waits for ends well or badly. -/
inductive Action (ν : Type) where
  | make (goal : ν)
  | proceed (ok : Bool) (delay : ℕ)

section Semantics

variable {ν κ : Type} [DecidableEq ν]

def rulesOf (mk : Rules ν κ) (t : ν) : Rules ν κ := mk.filter fun r => r.target = t

def prereqs (mk : Rules ν κ) (t : ν) : List ν := (rulesOf mk t).flatMap Rule.prereqs

/-- A later recipe for the same target overrides the earlier ones. -/
def recipe (mk : Rules ν κ) (t : ν) : List κ :=
  (((rulesOf mk t).map Rule.recipe).filter fun cs => !cs.isEmpty).getLast?.getD []

/-- A prerequisite that is still missing counts as new. -/
def newer (files : ν → Option ℕ) (p t : ν) : Bool :=
  match files p, files t with
  | none, _ => true
  | some _, none => false
  | some tp, some tt => decide (tt < tp)

def touched (files : ν → Option ℕ) (clock : ℕ) : Option ν → ν → Option ℕ
  | none => files
  | some f => Function.update files f (some clock)

/- `touches` names the file that a command creates or touches. -/
variable (touches : κ → Option ν) (mk : Rules ν κ)

def proceed (ok : Bool) (s : State ν κ) : State ν κ :=
  match s.stack with
  | [] => s
  | ⟨t, old, .checking (p :: ps)⟩ :: rest =>
    -- a circular dependency is dropped
    if p ∈ s.stack.map Frame.target then { s with stack := ⟨t, old, .checking ps⟩ :: rest }
    else if p ∈ s.updated then
      { s with stack := ⟨t, old || newer s.files p t, .checking ps⟩ :: rest }
    else { s with stack := ⟨p, false, .checking (prereqs mk p)⟩ :: s.stack }
  | ⟨t, old, .checking []⟩ :: rest =>
    -- no rule to make the target
    if (s.files t).isNone && (rulesOf mk t).isEmpty then { s with stack := [] }
    else if old || (s.files t).isNone then
      { s with stack := ⟨t, old, .running (recipe mk t)⟩ :: rest }
    else { s with stack := rest, updated := t :: s.updated }
  | ⟨t, _, .running []⟩ :: rest => { s with stack := rest, updated := t :: s.updated }
  | ⟨t, old, .running (c :: cs)⟩ :: rest =>
    { s with stack := ⟨t, old, .executing c cs⟩ :: rest, log := .started t c :: s.log }
  | ⟨t, old, .executing c cs⟩ :: rest =>
    if ok then
      { s with
        files := touched s.files s.clock (touches c)
        stack := ⟨t, old, .running cs⟩ :: rest
        log := .finished t c :: s.log }
    else { s with stack := [] }

def act (s : State ν κ) : Action ν → State ν κ
  | .make goal => { s with stack := [⟨goal, false, .checking (prereqs mk goal)⟩], updated := [] }
  | .proceed ok delay => proceed touches mk ok { s with clock := s.clock + delay }

def exec (run : List (Action ν)) (s : State ν κ) : State ν κ := run.foldl (act touches mk) s

def fresh (clock : ℕ) : State ν κ := ⟨fun _ => none, clock, [], [], []⟩

/-- What every action preserves, every run preserves. -/
theorem exec_induction {P : State ν κ → Prop} {legal : Action ν → Prop}
    (hact : ∀ s a, legal a → P s → P (act touches mk s a)) {run : List (Action ν)}
    (hrun : ∀ a ∈ run, legal a) {s : State ν κ} (hs : P s) : P (exec touches mk run s) := by
  induction run generalizing s with
  | nil => exact hs
  | cons a run ih =>
    exact ih (fun b hb => hrun b (List.mem_cons_of_mem _ hb))
      (hact s a (hrun a List.mem_cons_self) hs)

end Semantics

/-! ### Chains

The targets `names` form a chain: each has the one before it as its only
prerequisite, and the last command of its recipe touches it. A goal only collects
names. -/

structure Chain {ν κ : Type} [DecidableEq ν] (touches : κ → Option ν) (mk : Rules ν κ)
    (names goals : List ν) : Prop where
  nodup : names.Nodup
  prereqs : ∀ a x b, names = a ++ x :: b → prereqs mk x = a.getLast?.toList
  recipe : ∀ x ∈ names, ∃ cs c, recipe mk x = cs ++ [c] ∧ touches c = some x ∧
    ∀ d ∈ cs, touches d = none
  goal_not_mem : ∀ g ∈ goals, g ∉ names
  goal_prereqs : ∀ g ∈ goals, ∀ p ∈ Make.prereqs mk g, p ∈ names
  goal_recipe : ∀ g ∈ goals, Make.recipe mk g = []

section Chain

variable {ν κ : Type} [DecidableEq ν] {touches : κ → Option ν} {mk : Rules ν κ}
  {names goals : List ν}

/-- A stack that waits for `x`: the names after `x`, up to one that a goal asked for. -/
inductive Waits (names goals : List ν) : ν → List (Frame ν κ) → Prop where
  | goal {g x : ν} {ps : List ν} {old : Bool} (hg : g ∈ goals) (hps : ∀ p ∈ x :: ps, p ∈ names) :
      Waits names goals x [⟨g, old, .checking (x :: ps)⟩]
  | next {a b : List ν} {x y : ν} {rest : List (Frame ν κ)} (hsplit : names = a ++ x :: y :: b)
      (hrest : Waits names goals y rest) :
      Waits names goals x (⟨y, false, .checking [x]⟩ :: rest)

/-- How far the work on `x` can have come when the names `a` stand before it and
`stamped` are stamped. -/
def PhaseOk (mk : Rules ν κ) (stamped : List ν) (log : List (Event ν κ)) (a : List ν) (x : ν) :
    Phase ν κ → Prop
  | .checking ps => ps = prereqs mk x ∨ ps = [] ∧ ∀ y ∈ a, y ∈ stamped
  | .running cs => ∃ done, recipe mk x = done ++ cs ∧ (∀ c ∈ done, .finished x c ∈ log) ∧
      (cs = [] → x ∈ stamped) ∧ (cs ≠ [] → a = stamped)
  | .executing c cs => ∃ done, recipe mk x = done ++ c :: cs ∧
      (∀ c ∈ done, .finished x c ∈ log) ∧ a = stamped

inductive StackOk (mk : Rules ν κ) (names goals stamped : List ν) (log : List (Event ν κ)) :
    List (Frame ν κ) → Prop where
  | idle : StackOk mk names goals stamped log []
  | goal {g : ν} {old : Bool} {ps : List ν} (hg : g ∈ goals) (hps : ∀ p ∈ ps, p ∈ names) :
      StackOk mk names goals stamped log [⟨g, old, .checking ps⟩]
  | finish {g : ν} {old : Bool} (hg : g ∈ goals) :
      StackOk mk names goals stamped log [⟨g, old, .running []⟩]
  | name {a b : List ν} {x : ν} {ph : Phase ν κ} {rest : List (Frame ν κ)}
      (hsplit : names = a ++ x :: b) (hrest : Waits names goals x rest)
      (hph : PhaseOk mk stamped log a x ph) :
      StackOk mk names goals stamped log (⟨x, false, ph⟩ :: rest)

/-- The invariant: `stamped` are the names with a file, in the order of their
times, and the log tells of each recipe that was completed. -/
structure Inv (touches : κ → Option ν) (mk : Rules ν κ) (names goals stamped : List ν)
    (s : State ν κ) : Prop where
  isPrefix : stamped <+: names
  files : ∀ f, (s.files f).isSome ↔ f ∈ stamped
  times : stamped.Pairwise fun y z => newer s.files y z = false
  clock : ∀ f t, s.files f = some t → t ≤ s.clock
  updated : ∀ u ∈ s.updated, u ∈ names → u ∈ stamped
  finished : ∀ x ∈ stamped, ∀ c ∈ recipe mk x, .finished x c ∈ s.log
  stamps : ∀ x c, .finished x c ∈ s.log → touches c = some x → x ∈ stamped
  started : ∀ later earlier x c, s.log = later ++ .started x c :: earlier →
    ∀ a b, names = a ++ x :: b →
      (∀ y ∈ a, ∀ d ∈ recipe mk y, .finished y d ∈ earlier) ∧
        ∀ d, touches d = some x → .finished x d ∉ earlier
  stack : StackOk mk names goals stamped s.log s.stack

/-! ### Positions in the chain -/

omit [DecidableEq ν] in
theorem not_mem_before (hn : names.Nodup) {a b : List ν} {x : ν} (h : names = a ++ x :: b) :
    x ∉ a := by
  subst h
  exact fun hm => (List.nodup_append.mp hn).2.2 x hm x List.mem_cons_self rfl

omit [DecidableEq ν] in
theorem split_unique (hn : names.Nodup) {a a' b b' : List ν} {x : ν} (h : names = a ++ x :: b)
    (h' : names = a' ++ x :: b') : a = a' ∧ b = b' := by
  have ha := not_mem_before hn h
  subst h
  have hb : x ∉ b := (List.nodup_cons.mp (List.nodup_append.mp hn).2.1).1
  have key := (List.append_cons_inj_of_notMem ha hb).mp h'
  exact ⟨key.1, key.2.2⟩

omit [DecidableEq ν] in
theorem stamped_before (hn : names.Nodup) {stamped a b : List ν} {x : ν} (hp : stamped <+: names)
    (h : names = a ++ x :: b) (hx : x ∈ stamped) : ∀ y ∈ a, y ∈ stamped := by
  obtain ⟨todo, ht⟩ := hp
  obtain ⟨u, v, hu⟩ := List.append_of_mem hx
  have h' : names = u ++ x :: (v ++ todo) := by rw [← ht, hu]; simp
  rw [(split_unique hn h h').1, hu]
  intro y hy
  exact List.mem_append_left _ hy

omit [DecidableEq ν] in
theorem eq_stamped (hn : names.Nodup) {stamped a b : List ν} {x : ν} (hp : stamped <+: names)
    (h : names = a ++ x :: b) (ha : ∀ y ∈ a, y ∈ stamped) (hx : x ∉ stamped) : a = stamped := by
  have hpa : a <+: names := ⟨x :: b, h.symm⟩
  rcases List.prefix_or_prefix_of_prefix hpa hp with ⟨u, hu⟩ | ⟨u, hu⟩
  · cases u with
    | nil => simpa using hu
    | cons y u =>
      obtain ⟨todo, ht⟩ := hp
      have hxy : a ++ x :: b = a ++ y :: (u ++ todo) := by rw [← h, ← ht, ← hu]; simp
      have hy : x = y := (List.cons.inj (List.append_cancel_left hxy)).1
      exact absurd (by rw [← hu, hy]; simp) hx
  · cases u with
    | nil => simpa using hu.symm
    | cons y u =>
      have hna : (stamped ++ y :: u).Nodup := by
        rw [hu]
        exact hn.sublist hpa.sublist
      have hy : y ∈ stamped := ha y (by rw [← hu]; simp)
      exact absurd rfl ((List.nodup_append.mp hna).2.2 y hy y List.mem_cons_self)

theorem Waits.targets (hc : Chain touches mk names goals) {x : ν} {st : List (Frame ν κ)}
    (hw : Waits names goals x st) {a b : List ν} (h : names = a ++ x :: b) :
    ∀ t ∈ st.map Frame.target, t ∈ b ∨ t ∈ goals := by
  induction hw generalizing a b with
  | goal hg hps =>
    intro t ht
    rw [List.mem_singleton.mp ht]
    exact .inr hg
  | @next a' b' x y rest hsplit hrest ih =>
    obtain ⟨rfl, rfl⟩ := split_unique hc.nodup h hsplit
    intro t ht
    rcases List.mem_cons.mp ht with rfl | ht
    · exact .inl List.mem_cons_self
    · rcases ih (a := a ++ [x]) (b := b') (by rw [h]; simp) t ht with hb | hg
      · exact .inl (List.mem_cons_of_mem _ hb)
      · exact .inr hg

theorem not_busy (hc : Chain touches mk names goals) {a b : List ν} {p x : ν}
    {st : List (Frame ν κ)} (h : names = (a ++ [p]) ++ x :: b) (hw : Waits names goals x st) :
    p ∉ x :: st.map Frame.target := by
  have hn := List.nodup_append.mp (h ▸ hc.nodup)
  have hp : p ∈ a ++ [p] := by simp
  intro hm
  rcases List.mem_cons.mp hm with rfl | hm
  · exact hn.2.2 p hp p List.mem_cons_self rfl
  · rcases hw.targets hc h p hm with hb | hg
    · exact hn.2.2 p hp p (List.mem_cons_of_mem _ hb) rfl
    · exact hc.goal_not_mem p hg (by rw [h]; simp)

/-! ### The step -/

theorem Inv.withStack {stamped : List ν} {s : State ν κ}
    (h : Inv touches mk names goals stamped s) {st : List (Frame ν κ)} {upd : List ν} {clk : ℕ}
    (hst : StackOk mk names goals stamped s.log st) (hupd : ∀ u ∈ upd, u ∈ names → u ∈ stamped)
    (hclk : s.clock ≤ clk) :
    Inv touches mk names goals stamped { s with stack := st, updated := upd, clock := clk } :=
  { h with
    clock := fun f t hf => (h.clock f t hf).trans hclk
    updated := hupd
    stack := hst }

theorem Waits.resume (hc : Chain touches mk names goals) {stamped : List ν}
    {log : List (Event ν κ)} {x : ν} {st : List (Frame ν κ)} (hw : Waits names goals x st) :
    StackOk mk names goals stamped log st := by
  cases hw with
  | goal hg hps => exact .goal hg hps
  | @next a b x y rest hsplit hrest =>
    have hy : names = (a ++ [x]) ++ y :: b := by rw [hsplit]; simp
    refine .name hy hrest (.inl ?_)
    rw [hc.prereqs _ _ _ hy]
    simp

theorem Inv.finishName (hc : Chain touches mk names goals) {stamped : List ν} {s : State ν κ}
    (h : Inv touches mk names goals stamped s) {x : ν} {rest : List (Frame ν κ)}
    (hw : Waits names goals x rest) (hx : x ∈ stamped) :
    Inv touches mk names goals stamped
      { s with stack := rest, updated := x :: s.updated } := by
  refine h.withStack (hw.resume hc) ?_ le_rfl
  intro u hu hun
  rcases List.mem_cons.mp hu with rfl | hu
  · exact hx
  · exact h.updated u hu hun

theorem Inv.finishGoal (hc : Chain touches mk names goals) {stamped : List ν} {s : State ν κ}
    (h : Inv touches mk names goals stamped s) {g : ν} (hg : g ∈ goals) :
    Inv touches mk names goals stamped
      { s with stack := [], updated := g :: s.updated } := by
  refine h.withStack .idle ?_ le_rfl
  intro u hu hun
  rcases List.mem_cons.mp hu with rfl | hu
  · exact absurd hun (hc.goal_not_mem u hg)
  · exact h.updated u hu hun

theorem Inv.not_newer (hc : Chain touches mk names goals) {stamped : List ν} {s : State ν κ}
    (h : Inv touches mk names goals stamped s) {a b : List ν} {p x : ν}
    (hsplit : names = (a ++ [p]) ++ x :: b) (hp : p ∈ stamped) : newer s.files p x = false := by
  by_cases hx : x ∈ stamped
  · obtain ⟨todo, ht⟩ := h.isPrefix
    obtain ⟨u, v, hu⟩ := List.append_of_mem hx
    have hux : names = u ++ x :: (v ++ todo) := by rw [← ht, hu]; simp
    have hau := (split_unique hc.nodup hsplit hux).1
    have htimes := h.times
    rw [hu, ← hau] at htimes
    exact (List.pairwise_append.mp htimes).2.2 p (by simp) x List.mem_cons_self
  · have hfx : s.files x = none := by
      have := mt (h.files x).mp hx
      simpa using this
    obtain ⟨t, hfp⟩ := Option.isSome_iff_exists.mp ((h.files p).mpr hp)
    simp only [newer, hfx, hfp]

theorem Inv.proceed_checked (hc : Chain touches mk names goals) {stamped : List ν}
    {s : State ν κ} (h : Inv touches mk names goals stamped s) (ok : Bool) {a b : List ν}
    {x : ν} {rest : List (Frame ν κ)} (hs : s.stack = ⟨x, false, .checking []⟩ :: rest)
    (hsplit : names = a ++ x :: b) (hw : Waits names goals x rest) (hall : ∀ y ∈ a, y ∈ stamped) :
    Inv touches mk names goals stamped (proceed touches mk ok s) := by
  simp only [proceed, hs, Bool.false_or]
  split
  · exact h.withStack .idle h.updated le_rfl
  · split
    · -- `x` is the first name without a file
      rename_i hnone
      have hx : x ∉ stamped := by
        intro hx
        have hfile := (h.files x).mpr hx
        rw [Option.isNone_iff_eq_none.mp hnone] at hfile
        cases hfile
      have ha : a = stamped := eq_stamped hc.nodup h.isPrefix hsplit hall hx
      obtain ⟨cs, c, hr, -⟩ := hc.recipe x (by rw [hsplit]; simp)
      refine h.withStack (.name hsplit hw ⟨[], rfl, by simp, ?_, fun _ => ha⟩) h.updated le_rfl
      intro hnil
      rw [hr] at hnil
      simp at hnil
    · rename_i hsome
      refine h.finishName hc hw ((h.files x).mp ?_)
      simpa [Option.isNone_iff_eq_none, Option.isSome_iff_ne_none] using hsome

theorem Inv.proceed_prereq (hc : Chain touches mk names goals) {stamped : List ν}
    {s : State ν κ} (h : Inv touches mk names goals stamped s) (ok : Bool) {a b : List ν}
    {p x : ν} {rest : List (Frame ν κ)} (hs : s.stack = ⟨x, false, .checking [p]⟩ :: rest)
    (hsplit : names = (a ++ [p]) ++ x :: b) (hw : Waits names goals x rest) :
    Inv touches mk names goals stamped (proceed touches mk ok s) := by
  have hbusy : p ∉ s.stack.map Frame.target := by
    rw [hs]
    exact not_busy hc hsplit hw
  have hup : names = a ++ p :: (x :: b) := by rw [hsplit]; simp
  simp only [proceed, hs]
  rw [if_neg (by rw [← hs]; exact hbusy)]
  split
  · rename_i hupd
    have hp : p ∈ stamped := h.updated p hupd (by rw [hup]; simp)
    rw [h.not_newer hc hsplit hp]
    refine h.withStack (.name hsplit hw (.inr ⟨rfl, ?_⟩)) h.updated le_rfl
    intro y hy
    rcases List.mem_append.mp hy with hy | hy
    · exact stamped_before hc.nodup h.isPrefix hup hp y hy
    · rw [List.mem_singleton.mp hy]
      exact hp
  · exact h.withStack (.name hup (.next hup hw) (.inl rfl)) h.updated le_rfl

theorem Inv.proceed_checking (hc : Chain touches mk names goals) {stamped : List ν}
    {s : State ν κ} (h : Inv touches mk names goals stamped s) (ok : Bool) {a b ps : List ν}
    {x : ν} {rest : List (Frame ν κ)} (hs : s.stack = ⟨x, false, .checking ps⟩ :: rest)
    (hsplit : names = a ++ x :: b) (hw : Waits names goals x rest)
    (hps : ps = prereqs mk x ∨ ps = [] ∧ ∀ y ∈ a, y ∈ stamped) :
    Inv touches mk names goals stamped (proceed touches mk ok s) := by
  rw [hc.prereqs _ _ _ hsplit] at hps
  rcases List.eq_nil_or_concat' a with rfl | ⟨u, p, rfl⟩
  · obtain rfl : ps = [] := hps.elim id And.left
    exact h.proceed_checked hc ok hs hsplit hw fun y hy => by cases hy
  · rw [List.getLast?_concat, Option.toList_some] at hps
    rcases hps with rfl | ⟨rfl, hall⟩
    · exact h.proceed_prereq hc ok hs hsplit hw
    · exact h.proceed_checked hc ok hs hsplit hw hall

theorem Inv.proceed_running (hc : Chain touches mk names goals) {stamped : List ν}
    {s : State ν κ} (h : Inv touches mk names goals stamped s) (ok : Bool) {a b : List ν}
    {cs : List κ} {x : ν} {rest : List (Frame ν κ)} (hs : s.stack = ⟨x, false, .running cs⟩ :: rest)
    (hsplit : names = a ++ x :: b) (hw : Waits names goals x rest)
    (hph : PhaseOk mk stamped s.log a x (.running cs)) :
    Inv touches mk names goals stamped (proceed touches mk ok s) := by
  obtain ⟨done, hr, hdone, hnil, hcons⟩ := hph
  cases cs with
  | nil =>
    simp only [proceed, hs]
    exact h.finishName hc hw (hnil rfl)
  | cons c cs =>
    have ha : a = stamped := hcons (by simp)
    have hx : x ∉ stamped := ha ▸ not_mem_before hc.nodup hsplit
    simp only [proceed, hs]
    have hgrow : ∀ e ∈ s.log, e ∈ Event.started x c :: s.log :=
      fun e he => List.mem_cons_of_mem _ he
    refine { h with finished := ?_, stamps := ?_, started := ?_, stack := ?_ }
    · exact fun y hy d hd => hgrow _ (h.finished y hy d hd)
    · intro y d hm
      rcases List.mem_cons.mp hm with he | hm
      · cases he
      · exact h.stamps y d hm
    · intro later earlier y d hlog a' b' hy
      cases later with
      | nil =>
        -- the command that starts now
        obtain ⟨hxy, rfl⟩ := List.cons.inj hlog
        cases hxy
        obtain ⟨rfl, rfl⟩ := split_unique hc.nodup hsplit hy
        refine ⟨?_, fun e he hm => hx (h.stamps x e hm he)⟩
        intro z hz
        rw [ha] at hz
        exact h.finished z hz
      | cons e later => exact h.started later earlier y d (List.cons.inj hlog).2 a' b' hy
    · exact .name hsplit hw ⟨done, hr, fun e he => hgrow _ (hdone e he), ha⟩

omit [DecidableEq ν] in
theorem started_finished {log : List (Event ν κ)} {x y : ν} {c d : κ}
    {later earlier : List (Event ν κ)}
    (hlog : .finished x c :: log = later ++ .started y d :: earlier) :
    ∃ later', log = later' ++ .started y d :: earlier := by
  cases later with
  | nil => cases (List.cons.inj hlog).1
  | cons e later => exact ⟨later, (List.cons.inj hlog).2⟩

theorem Inv.finishCommand {stamped : List ν} {s : State ν κ}
    (h : Inv touches mk names goals stamped s) {x : ν} {c : κ} (hx : touches c = none)
    {st : List (Frame ν κ)} (hst : StackOk mk names goals stamped (.finished x c :: s.log) st) :
    Inv touches mk names goals stamped
      { s with stack := st, log := .finished x c :: s.log } := by
  refine { h with finished := ?_, stamps := ?_, started := ?_, stack := hst }
  · exact fun y hy d hd => List.mem_cons_of_mem _ (h.finished y hy d hd)
  · intro y d hm hd
    rcases List.mem_cons.mp hm with he | hm
    · cases he
      rw [hx] at hd
      cases hd
    · exact h.stamps y d hm hd
  · intro later earlier y d hlog
    obtain ⟨later, hlog⟩ := started_finished hlog
    exact h.started later earlier y d hlog

theorem Inv.stamp_files {stamped : List ν} {s : State ν κ}
    (h : Inv touches mk names goals stamped s) (x f : ν) :
    (Function.update s.files x (some s.clock) f).isSome ↔ f ∈ stamped ++ [x] := by
  by_cases hf : f = x
  · rw [hf]
    simp
  · rw [Function.update_of_ne hf, h.files f]
    simp [hf]

theorem Inv.stamp_times {stamped : List ν} {s : State ν κ}
    (h : Inv touches mk names goals stamped s) {x : ν} (hx : x ∉ stamped) :
    (stamped ++ [x]).Pairwise fun y z =>
      newer (Function.update s.files x (some s.clock)) y z = false := by
  have hsame : ∀ y ∈ stamped, Function.update s.files x (some s.clock) y = s.files y :=
    fun y hy => Function.update_of_ne (ne_of_mem_of_not_mem hy hx) _ _
  refine List.pairwise_append.mpr ⟨?_, List.pairwise_singleton _ _, ?_⟩
  · apply h.times.imp_of_mem
    intro y z hy hz hyz
    simp only [newer, hsame y hy, hsame z hz]
    exact hyz
  · intro y hy z hz
    rw [List.mem_singleton.mp hz]
    obtain ⟨t, ht⟩ := Option.isSome_iff_exists.mp ((h.files y).mpr hy)
    simp only [newer, hsame y hy, ht, Function.update_self]
    simpa using h.clock y t ht

theorem Inv.stamp_clock {stamped : List ν} {s : State ν κ}
    (h : Inv touches mk names goals stamped s) {x f : ν} {t : ℕ}
    (hf : Function.update s.files x (some s.clock) f = some t) : t ≤ s.clock := by
  by_cases hfx : f = x
  · rw [hfx, Function.update_self] at hf
    exact le_of_eq (Option.some.inj hf).symm
  · rw [Function.update_of_ne hfx] at hf
    exact h.clock f t hf

theorem Inv.stamp (hc : Chain touches mk names goals) {stamped b : List ν} {s : State ν κ}
    (h : Inv touches mk names goals stamped s) {x : ν} {c : κ} (hsplit : names = stamped ++ x :: b)
    (hx : touches c = some x)
    (hfin : ∀ d ∈ recipe mk x, .finished x d ∈ Event.finished x c :: s.log)
    {st : List (Frame ν κ)}
    (hst : StackOk mk names goals (stamped ++ [x]) (.finished x c :: s.log) st) :
    Inv touches mk names goals (stamped ++ [x])
      { s with
        files := Function.update s.files x (some s.clock)
        stack := st
        log := .finished x c :: s.log } := by
  have hnot := not_mem_before hc.nodup hsplit
  refine
    { isPrefix := ⟨b, by rw [hsplit]; simp⟩
      files := h.stamp_files x
      times := h.stamp_times hnot
      clock := fun f t hf => h.stamp_clock hf
      updated := fun u hu hun => List.mem_append_left _ (h.updated u hu hun)
      finished := ?_
      stamps := ?_
      started := ?_
      stack := hst }
  · intro y hy d hd
    rcases List.mem_append.mp hy with hy | hy
    · exact List.mem_cons_of_mem _ (h.finished y hy d hd)
    · rw [List.mem_singleton.mp hy] at hd ⊢
      exact hfin d hd
  · intro y d hm hd
    rcases List.mem_cons.mp hm with he | hm
    · cases he
      rw [hx] at hd
      cases hd
      simp
    · exact List.mem_append_left _ (h.stamps y d hm hd)
  · intro later earlier y d hlog
    obtain ⟨later, hlog⟩ := started_finished hlog
    exact h.started later earlier y d hlog

theorem Inv.proceed_executing (hc : Chain touches mk names goals) {stamped : List ν}
    {s : State ν κ} (h : Inv touches mk names goals stamped s) (ok : Bool) {a b : List ν} {c : κ}
    {cs : List κ} {x : ν} {rest : List (Frame ν κ)}
    (hs : s.stack = ⟨x, false, .executing c cs⟩ :: rest) (hsplit : names = a ++ x :: b)
    (hw : Waits names goals x rest) (hph : PhaseOk mk stamped s.log a x (.executing c cs)) :
    ∃ stamped', Inv touches mk names goals stamped' (proceed touches mk ok s) := by
  obtain ⟨done, hr, hdone, rfl⟩ := hph
  obtain ⟨ds, e, hrec, htouch, hother⟩ := hc.recipe x (by rw [hsplit]; simp)
  have hdone' : ∀ d ∈ done ++ [c], .finished x d ∈ Event.finished x c :: s.log := by
    intro d hd
    rcases List.mem_append.mp hd with hd | hd
    · exact List.mem_cons_of_mem _ (hdone d hd)
    · rw [List.mem_singleton.mp hd]
      exact List.mem_cons_self
  simp only [proceed, hs]
  cases ok with
  | false => exact ⟨a, h.withStack .idle h.updated le_rfl⟩
  | true =>
    rw [if_pos rfl]
    cases cs with
    | nil =>
      have hce : c = e := by
        rw [hrec] at hr
        exact ((List.append_inj' hr rfl).2 |> List.cons.inj).1.symm
      rw [hce, htouch, ← hce]
      refine ⟨a ++ [x], h.stamp hc hsplit (by rw [hce, htouch]) ?_ ?_⟩
      · rw [hr]
        exact hdone'
      · exact .name hsplit hw
          ⟨done ++ [c], by rw [hr]; simp, hdone', fun _ => by simp, fun hne => absurd rfl hne⟩
    | cons c' cs =>
      have hcd : touches c = none := by
        apply hother c
        have : ds = done ++ c :: (c' :: cs).dropLast := by
          have hr' : ds ++ [e] =
              (done ++ c :: (c' :: cs).dropLast) ++ [(c' :: cs).getLast (by simp)] := by
            rw [← hrec, hr, List.append_assoc, List.cons_append, List.dropLast_append_getLast]
          exact (List.append_inj' hr' rfl).1
        rw [this]
        simp
      rw [hcd]
      refine ⟨a, h.finishCommand hcd (.name hsplit hw ?_)⟩
      exact ⟨done ++ [c], by rw [hr]; simp, hdone', fun hnil => by simp at hnil, fun _ => rfl⟩

theorem Inv.proceed_goal (hc : Chain touches mk names goals) {stamped : List ν}
    {s : State ν κ} (h : Inv touches mk names goals stamped s) (ok : Bool) {g : ν} {old : Bool}
    {ps : List ν} (hs : s.stack = [⟨g, old, .checking ps⟩]) (hg : g ∈ goals)
    (hps : ∀ p ∈ ps, p ∈ names) :
    Inv touches mk names goals stamped (proceed touches mk ok s) := by
  cases ps with
  | nil =>
    simp only [proceed, hs, hc.goal_recipe g hg]
    split
    · exact h.withStack .idle h.updated le_rfl
    · split
      · exact h.withStack (.finish hg) h.updated le_rfl
      · exact h.finishGoal hc hg
  | cons p ps =>
    have hps' : ∀ q ∈ ps, q ∈ names := fun q hq => hps q (List.mem_cons_of_mem _ hq)
    obtain ⟨a, b, hsplit⟩ := List.append_of_mem (hps p List.mem_cons_self)
    simp only [proceed, hs]
    split
    · exact h.withStack (.goal hg hps') h.updated le_rfl
    · split
      · exact h.withStack (.goal hg hps') h.updated le_rfl
      · exact h.withStack (.name hsplit (.goal hg hps) (.inl rfl)) h.updated le_rfl

theorem Inv.proceed (hc : Chain touches mk names goals) {stamped : List ν} {s : State ν κ}
    (h : Inv touches mk names goals stamped s) (ok : Bool) :
    ∃ stamped', Inv touches mk names goals stamped' (proceed touches mk ok s) := by
  generalize hst : s.stack = st
  have hstack := h.stack
  rw [hst] at hstack
  cases hstack with
  | idle =>
    refine ⟨stamped, ?_⟩
    simp only [Make.proceed, hst]
    exact h
  | goal hg hps => exact ⟨stamped, h.proceed_goal hc ok hst hg hps⟩
  | finish hg =>
    refine ⟨stamped, ?_⟩
    simp only [Make.proceed, hst]
    exact h.finishGoal hc hg
  | @name a b x ph rest hsplit hrest hph =>
    cases ph with
    | checking ps => exact ⟨stamped, h.proceed_checking hc ok hst hsplit hrest hph⟩
    | running cs => exact ⟨stamped, h.proceed_running hc ok hst hsplit hrest hph⟩
    | executing c cs => exact h.proceed_executing hc ok hst hsplit hrest hph

theorem Inv.act (hc : Chain touches mk names goals) {stamped : List ν} {s : State ν κ}
    (h : Inv touches mk names goals stamped s) {a : Action ν} (ha : ∀ g, a = .make g → g ∈ goals) :
    ∃ stamped', Inv touches mk names goals stamped' (act touches mk s a) := by
  cases a with
  | make g =>
    have hg := ha g rfl
    exact ⟨stamped, h.withStack (.goal hg (hc.goal_prereqs g hg)) (by simp) le_rfl⟩
  | proceed ok delay =>
    exact (h.withStack h.stack h.updated (Nat.le_add_right s.clock delay)).proceed hc ok

theorem inv_fresh (clock : ℕ) :
    Inv touches mk names goals [] (fresh clock : State ν κ) := by
  constructor <;> simp [fresh, StackOk.idle]

/-- The invariant holds after every sequence of actions. -/
theorem Chain.exec (hc : Chain touches mk names goals) {run : List (Action ν)}
    (hrun : ∀ g, .make g ∈ run → g ∈ goals) (clock : ℕ) :
    ∃ stamped, Inv touches mk names goals stamped (exec touches mk run (fresh clock)) := by
  have hlegal : ∀ a ∈ run, ∀ g, a = .make g → g ∈ goals := fun a ha g hg => hrun g (hg ▸ ha)
  have hact : ∀ (s : State ν κ) a, (∀ g, a = .make g → g ∈ goals) →
      (∃ stamped, Inv touches mk names goals stamped s) →
      ∃ stamped, Inv touches mk names goals stamped (Make.act touches mk s a) := by
    intro s a ha hs
    obtain ⟨stamped, h⟩ := hs
    exact h.act hc ha
  exact exec_induction touches mk hact hlegal ⟨[], inv_fresh clock⟩

end Chain

end Make

end HaoosLfs
