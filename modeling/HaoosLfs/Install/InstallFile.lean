import HaoosLfs.Install.InstallPkg
import HaoosLfs.Lib.Lists

/-!
# What `install.sh -f` does with a list

Two questions about whole lists: whether the entries that begin with `#` are left
out, and whether the exit status tells that every package was installed.
-/

namespace HaoosLfs.Install
open Text ShellWords

/-- `grep "^#"` -/
def isComment (entry : Text) : Bool := entry.head? = some '#'

def withoutComments (entries : List Text) : List Text := entries.filter fun e => !isComment e

/-- The calls of `install_pkg`, each with the entry that it is made for. -/
def Exit.calls (r : Exit) : List (Text × Job) :=
  r.started.filterMap fun s => s.job.map fun job => (s.entry, job)

section
variable {ω : Type} {host : Host ω}

/-! ### Comments -/

def CommentsIgnored (host : Host ω) (w : ω) (sh : Shell) (status : ℕ) (entries : List Text) :
    Prop :=
  (installLoop host w sh status entries).calls =
      (installLoop host w sh status (withoutComments entries)).calls ∧
    withoutComments ((installLoop host w sh status entries).started.map Started.entry) =
      (installLoop host w sh status (withoutComments entries)).started.map Started.entry

theorem started_subset {w : ω} {sh : Shell} {status : ℕ} {entries : List Text} {s : Started}
    (hs : s ∈ (installLoop host w sh status entries).started) : s.entry ∈ entries := by
  induction entries generalizing w sh status with
  | nil => cases hs
  | cons entry entries ih =>
    have hfirst := installStep_entry host w sh entry
    cases hn : (installStep host w sh entry).2 with
    | none =>
      rw [installLoop_exit hn, List.mem_singleton] at hs
      rw [hs, hfirst]
      exact List.mem_cons_self
    | some next =>
      rw [installLoop_next hn] at hs
      rcases List.mem_cons.mp hs with rfl | hs
      · rw [hfirst]
        exact List.mem_cons_self
      · exact List.mem_cons_of_mem _ (ih hs)

theorem not_comment_of_call {w : ω} {sh : Shell} {status : ℕ} {entries : List Text}
    {c : Text × Job} (hc : c ∈ (installLoop host w sh status (withoutComments entries)).calls) :
    isComment c.1 = false := by
  obtain ⟨s, hs, hm⟩ := List.mem_filterMap.mp hc
  obtain ⟨job, -, rfl⟩ := Option.map_eq_some_iff.mp hm
  have he := started_subset hs
  exact Bool.not_eq_true' _ ▸ (List.mem_filter.mp he).2

theorem started_cons (host : Host ω) (w : ω) (sh : Shell) (status : ℕ) (entry : Text)
    (entries : List Text) :
    ∃ rest, (installLoop host w sh status (entry :: entries)).started =
      (installStep host w sh entry).1 :: rest := by
  cases hn : (installStep host w sh entry).2 with
  | none => exact ⟨[], by rw [installLoop_exit hn]⟩
  | some next => exact ⟨_, by rw [installLoop_next hn]⟩

theorem started_eq_nil_iff {w : ω} {sh : Shell} {status : ℕ} {entries : List Text} :
    (installLoop host w sh status entries).started = [] ↔ entries = [] := by
  cases entries with
  | nil => exact ⟨fun _ => rfl, fun _ => rfl⟩
  | cons entry entries =>
    obtain ⟨rest, hrest⟩ := started_cons host w sh status entry entries
    simp [hrest]

theorem withoutComments_eq_nil {entries : List Text} :
    withoutComments entries = [] ↔ ∀ e ∈ entries, isComment e := by
  unfold withoutComments
  rw [List.filter_eq_nil_iff]
  simp

theorem commentsIgnored_comment {w : ω} {sh : Shell} {status : ℕ} {entry : Text}
    {entries : List Text} (hentry : isComment entry) :
    CommentsIgnored host w sh status (entry :: entries) ↔
      jobOf host w (transName host.find w sh entry) = none ∧ ∀ e ∈ entries, isComment e := by
  have hfilter : withoutComments (entry :: entries) = withoutComments entries :=
    List.filter_cons_of_neg (by rw [hentry]; decide)
  have hcase := installStep_cases host w sh entry
  unfold CommentsIgnored
  rw [hfilter]
  rcases hcase with ⟨hj, hs⟩ | ⟨job, hj, -⟩
  · have hloop : installLoop host w sh status (entry :: entries) =
        ⟨[⟨entry, none, .noUrl⟩], 0⟩ := by
      rw [installLoop_exit (by rw [hs]), hs]
    have hnone : withoutComments [entry] = [] :=
      withoutComments_eq_nil.mpr fun e he => by rw [List.mem_singleton.mp he]; exact hentry
    rw [hloop, List.map_singleton, hnone, ← withoutComments_eq_nil]
    constructor
    · rintro ⟨-, hstarted⟩
      exact ⟨hj, started_eq_nil_iff.mp (List.map_eq_nil_iff.mp hstarted.symm)⟩
    · rintro ⟨-, hrest⟩
      rw [hrest]
      exact ⟨rfl, rfl⟩
  · obtain ⟨rest, hstarted⟩ := started_cons host w sh status entry entries
    have hmem : (entry, job) ∈ (installLoop host w sh status (entry :: entries)).calls := by
      refine List.mem_filterMap.mpr ⟨(installStep host w sh entry).1, ?_, ?_⟩
      · rw [hstarted]
        exact List.mem_cons_self
      · rw [installStep_job, hj, installStep_entry]
        rfl
    constructor
    · rintro ⟨hcalls, -⟩
      rw [hcalls] at hmem
      have hno := not_comment_of_call hmem
      rw [hentry] at hno
      cases hno
    · rintro ⟨hnone, -⟩
      rw [hj] at hnone
      cases hnone

theorem commentsIgnored_package {w : ω} {sh : Shell} {status : ℕ} {entry : Text}
    {entries : List Text} (hentry : isComment entry = false) :
    CommentsIgnored host w sh status (entry :: entries) ↔
      ∀ s, (installStep host w sh entry).2 = some s →
        CommentsIgnored host s.1 s.2.1 s.2.2 entries := by
  have hfilter : withoutComments (entry :: entries) = entry :: withoutComments entries :=
    List.filter_cons_of_pos (by rw [hentry]; rfl)
  have hkept : ∀ es, withoutComments (entry :: es) = entry :: withoutComments es :=
    fun es => List.filter_cons_of_pos (by rw [hentry]; rfl)
  unfold CommentsIgnored
  rw [hfilter]
  cases hn : (installStep host w sh entry).2 with
  | none =>
    rw [installLoop_exit hn, installLoop_exit hn, List.map_singleton, installStep_entry, hkept]
    exact ⟨fun _ s hs => (nomatch hs), fun _ => ⟨rfl, rfl⟩⟩
  | some next =>
    have hcalls : ∀ (r r' : Exit) (s : Started),
        (Exit.mk (s :: r.started) r.status).calls = (Exit.mk (s :: r'.started) r'.status).calls ↔
          r.calls = r'.calls := by
      intro r r' s
      cases hj : s.job with
      | none => simp [Exit.calls, hj]
      | some job => simp [Exit.calls, hj]
    rw [installLoop_next hn, installLoop_next hn, hcalls, List.map_cons, installStep_entry, hkept,
      List.map_cons, installStep_entry, List.cons.injEq, eq_self, true_and]
    constructor
    · intro h s hs
      obtain rfl := Option.some.inj hs
      exact h
    · intro h
      exact h next rfl

theorem commentsIgnored_iff {w : ω} {sh : Shell} {status : ℕ} {entries : List Text} :
    CommentsIgnored host w sh status entries ↔
      ∀ before entry after, entries = before ++ entry :: after → isComment entry →
        ∀ s, stateAfter host w sh status before = some s →
          jobOf host s.1 (transName host.find s.1 s.2.1 entry) = none ∧
            ∀ e ∈ after, isComment e := by
  induction entries generalizing w sh status with
  | nil =>
    constructor
    · intro _ before entry after h
      exact absurd h.symm (by simp)
    · intro _
      exact ⟨rfl, rfl⟩
  | cons first entries ih =>
    rw [forall_split_cons]
    cases hfirst : isComment first with
    | true =>
      rw [commentsIgnored_comment hfirst]
      constructor
      · rintro ⟨hj, hrest⟩
        refine ⟨fun _ s hs => ?_, fun before entry after _ _ s hs => ?_⟩
        · obtain rfl := Option.some.inj hs
          exact ⟨hj, hrest⟩
        · -- nothing is reached after a comment without a url
          rcases installStep_cases host w sh first with ⟨-, hstep⟩ | ⟨job, hsome, -⟩
          · rw [stateAfter, hstep] at hs
            cases hs
          · rw [hj] at hsome
            cases hsome
      · intro h
        exact h.1 rfl _ rfl
    | false =>
      rw [commentsIgnored_package hfirst]
      constructor
      · intro h
        refine ⟨fun hc => absurd hc (by simp), fun before entry after hsplit hc s hs => ?_⟩
        obtain ⟨next, hn, hs⟩ := Option.bind_eq_some_iff.mp hs
        exact ih.mp (h next hn) before entry after hsplit hc s hs
      · intro h next hn
        apply ih.mpr
        intro before entry after hsplit hc s hs
        refine h.2 before entry after hsplit hc s ?_
        rw [stateAfter, hn]
        exact hs

/-! ### The exit status -/

def AllInstalled (entries : List Text) (r : Exit) : Prop :=
  ∀ (i : ℕ) (entry : Text), entries[i]? = some entry → isComment entry = false →
    ∃ s : Started, r.started[i]? = some s ∧ s.outcome = .installed

/-- The status is 0 exactly when everything was installed, and nothing is started
after the first failure. -/
def StatusTells (entries : List Text) (r : Exit) : Prop :=
  (r.status = 0 ↔ AllInstalled entries r) ∧
    ∀ (i : ℕ) (s : Started), r.started[i]? = some s → s.outcome ≠ .installed →
      r.started.length = i + 1

theorem allInstalled_cons {entry : Text} {entries : List Text} {s : Started}
    {rest : List Started} {status : ℕ} :
    AllInstalled (entry :: entries) ⟨s :: rest, status⟩ ↔
      (isComment entry = false → s.outcome = .installed) ∧
        AllInstalled entries ⟨rest, status⟩ := by
  unfold AllInstalled
  constructor
  · intro h
    refine ⟨fun hc => ?_, fun i e he hc => h (i + 1) e he hc⟩
    obtain ⟨s', hs, ho⟩ := h 0 entry rfl hc
    obtain rfl := Option.some.inj hs
    exact ho
  · rintro ⟨hfirst, hrest⟩ i e he hc
    cases i with
    | zero =>
      obtain rfl := Option.some.inj he
      exact ⟨s, rfl, hfirst hc⟩
    | succ i => exact hrest i e he hc

theorem allInstalled_nil {entries : List Text} {status : ℕ} :
    AllInstalled entries ⟨[], status⟩ ↔ ∀ e ∈ entries, isComment e := by
  unfold AllInstalled
  constructor
  · intro h e he
    by_contra hc
    obtain ⟨i, hi⟩ := List.mem_iff_getElem?.mp he
    obtain ⟨s, hs, -⟩ := h i e hi (by simpa using hc)
    cases hs
  · intro h i e he hc
    rw [h e (List.mem_of_getElem? he)] at hc
    cases hc

theorem allInstalled_failed {entry : Text} {entries : List Text} {s : Started} {status : ℕ}
    (h : ¬ s.outcome = .installed) :
    AllInstalled (entry :: entries) ⟨[s], status⟩ ↔ ∀ e ∈ entry :: entries, isComment e := by
  rw [allInstalled_cons, allInstalled_nil, List.forall_mem_cons]
  refine and_congr_left fun _ => ⟨fun hinst => ?_, fun hcomment hno => ?_⟩
  · by_contra hc
    exact h (hinst (by simpa using hc))
  · rw [hcomment] at hno
    cases hno

def Installs (host : Host ω) (w : ω) (sh : Shell) (entry : Text) : Prop :=
  ∃ job, jobOf host w (transName host.find w sh entry) = some job ∧ (runScript host w job).2 = 0

theorem installs_iff (host : Host ω) (w : ω) (sh : Shell) (entry : Text) :
    Installs host w sh entry ↔ (installStep host w sh entry).2.isSome := by
  unfold Installs
  rcases installStep_cases host w sh entry with ⟨hj, hs⟩ | ⟨job, hj, h⟩
  · rw [hs, hj]
    simp
  · have hpkg : (runScript host w job).2 = 0 ↔ (installPkg host w job).isSome := by
      by_cases h0 : (runScript host w job).2 = 0
      · simp [installPkg, h0]
      · simp [installPkg, h0]
    rw [hj]
    simp only [Option.some.injEq, exists_eq_left', hpkg]
    rcases h with ⟨hp, hs⟩ | ⟨r, hp, hs⟩
    · rw [hs, hp]
      simp
    · rw [hs, hp]
      simp

theorem allInstalled_iff {w : ω} {sh : Shell} {status : ℕ} {entries : List Text} :
    AllInstalled entries (installLoop host w sh status entries) ↔
      ∀ before entry after, entries = before ++ entry :: after →
        (∃ e ∈ entry :: after, isComment e = false) →
          ∀ s, stateAfter host w sh status before = some s →
            Installs host s.1 s.2.1 entry := by
  induction entries generalizing w sh status with
  | nil =>
    constructor
    · intro _ before entry after h
      exact absurd h.symm (by simp)
    · intro _ i entry h
      cases h
  | cons first entries ih =>
    rw [forall_split_cons]
    have hinst := installs_iff host w sh first
    have hout := installStep_outcome host w sh first
    cases hn : (installStep host w sh first).2 with
    | none =>
      have hfail : ¬ (installStep host w sh first).1.outcome = .installed := by
        rw [hout, hn]
        simp
      have hno : ¬ Installs host w sh first := by
        rw [hinst, hn]
        simp
      rw [installLoop_exit hn, allInstalled_failed hfail]
      constructor
      · intro hall
        refine ⟨?_, fun before entry after _ _ s hs => ?_⟩
        · rintro ⟨e, he, hc⟩
          rw [hall e he] at hc
          cases hc
        · rw [stateAfter, hn] at hs
          cases hs
      · rintro ⟨h, -⟩ e he
        by_contra hc
        exact hno (h ⟨e, he, by simpa using hc⟩ _ rfl)
    | some next =>
      have hdone : (installStep host w sh first).1.outcome = .installed := by
        rw [hout, hn]
        rfl
      have hyes : Installs host w sh first := by
        rw [hinst, hn]
        rfl
      have hih := @ih next.1 next.2.1 next.2.2
      rw [installLoop_next hn, allInstalled_cons]
      constructor
      · rintro ⟨-, hrest⟩
        refine ⟨fun _ s hs => ?_, fun before entry after hsplit he s hs => ?_⟩
        · obtain rfl := Option.some.inj hs
          exact hyes
        · rw [stateAfter, hn] at hs
          exact hih.mp hrest before entry after hsplit he s hs
      · rintro ⟨-, h⟩
        refine ⟨fun _ => hdone, hih.mpr fun before entry after hsplit he s hs => ?_⟩
        refine h before entry after hsplit he s ?_
        rw [stateAfter, hn]
        exact hs

theorem length_started {w : ω} {sh : Shell} {status : ℕ} {entries : List Text} {i : ℕ}
    {s : Started} (hs : (installLoop host w sh status entries).started[i]? = some s)
    (ho : s.outcome ≠ .installed) :
    (installLoop host w sh status entries).started.length = i + 1 := by
  induction entries generalizing w sh status i with
  | nil => cases hs
  | cons first entries ih =>
    have hout := installStep_outcome host w sh first
    cases hn : (installStep host w sh first).2 with
    | none =>
      rw [installLoop_exit hn] at hs ⊢
      cases i with
      | zero => rfl
      | succ i => cases hs
    | some next =>
      rw [installLoop_next hn] at hs ⊢
      cases i with
      | zero =>
        obtain rfl := Option.some.inj hs
        exact absurd (hout.mpr (by rw [hn]; rfl)) ho
      | succ i => exact congrArg (· + 1) (ih hs)

/-- An exit is never told: only the last `popd` of a complete run can be. -/
theorem status_eq_zero_iff {w : ω} {sh : Shell} {status : ℕ} {entries : List Text} :
    (installLoop host w sh status entries).status = 0 ↔
      ∀ s, stateAfter host w sh status entries = some s → s.2.2 = 0 := by
  induction entries generalizing w sh status with
  | nil =>
    constructor
    · intro h s hs
      obtain rfl := Option.some.inj hs
      exact h
    · intro h
      exact h _ rfl
  | cons first entries ih =>
    rw [stateAfter]
    cases hn : (installStep host w sh first).2 with
    | none =>
      rw [installLoop_exit hn]
      exact ⟨fun _ s hs => (nomatch hs), fun _ => rfl⟩
    | some next =>
      rw [installLoop_next hn]
      exact ih

theorem allInstalled_of_stateAfter {w : ω} {sh : Shell} {status : ℕ} {entries : List Text}
    {s : ω × Shell × ℕ} (hs : stateAfter host w sh status entries = some s) :
    AllInstalled entries (installLoop host w sh status entries) := by
  induction entries generalizing w sh status with
  | nil =>
    intro i entry h
    cases h
  | cons first entries ih =>
    obtain ⟨next, hn, hs⟩ := Option.bind_eq_some_iff.mp hs
    have hout := installStep_outcome host w sh first
    rw [installLoop_next hn, allInstalled_cons]
    refine ⟨fun _ => hout.mpr ?_, ih hs⟩
    rw [hn]
    rfl

theorem statusTells_iff {w : ω} {sh : Shell} {status : ℕ} {entries : List Text} :
    StatusTells entries (installLoop host w sh status entries) ↔
      AllInstalled entries (installLoop host w sh status entries) ∧
        ∀ s, stateAfter host w sh status entries = some s → s.2.2 = 0 := by
  have hlen : ∀ (i : ℕ) (s : Started),
      (installLoop host w sh status entries).started[i]? = some s → s.outcome ≠ .installed →
        (installLoop host w sh status entries).started.length = i + 1 :=
    fun i s hs ho => length_started hs ho
  unfold StatusTells
  rw [and_iff_left hlen, status_eq_zero_iff]
  constructor
  · intro h
    have hall : AllInstalled entries (installLoop host w sh status entries) := by
      by_contra hno
      exact hno (h.mp fun s hs => absurd (allInstalled_of_stateAfter hs) hno)
    exact ⟨hall, h.mpr hall⟩
  · rintro ⟨hall, hstatus⟩
    exact ⟨fun _ => hall, fun _ => hstatus⟩

/-- In a run, the comments of a list have no effect exactly when each one that is
reached finds no url for the key left over, and only comments come after it. -/
theorem comments_ignored_iff (host : Host ω) (w : ω) (sh : Shell) (entries : List Text) :
    CommentsIgnored host w sh 0 entries ↔
      ∀ before entry after, entries = before ++ entry :: after → isComment entry →
        ∀ s, stateAfter host w sh 0 before = some s →
          downloadLine id host.grep (transName host.find s.1 s.2.1 entry).pkgFlag
              (host.packages s.1) = none ∧
            ∀ e ∈ after, isComment e := by
  have hjob : ∀ (w : ω) (sh : Shell), jobOf host w sh = none ↔
      downloadLine id host.grep sh.pkgFlag (host.packages w) = none :=
    fun w sh => Option.map_eq_none_iff
  rw [commentsIgnored_iff]
  simp only [hjob]

/-- In a run, the exit status tells whether everything was installed exactly when
every entry installs that is reached and that is no comment or has none but comments
after it, and, at the end of a complete run, the last `popd` succeeds. -/
theorem status_tells_iff (host : Host ω) (w : ω) (sh : Shell) (entries : List Text) :
    StatusTells entries (installFile host w sh entries) ↔
      (∀ before entry after, entries = before ++ entry :: after →
        (∃ e ∈ entry :: after, isComment e = false) →
          ∀ s, stateAfter host w sh 0 before = some s → Installs host s.1 s.2.1 entry) ∧
      ∀ s, stateAfter host w sh 0 entries = some s → s.2.2 = 0 := by
  unfold installFile
  rw [statusTells_iff, allInstalled_iff]

end

/-! ### Two lists -/

/-- `grep -i` for a pattern of ordinary characters after `^`. -/
def grepLiteral : Text → Text → Bool
  | '^' :: p, line => (p.map Char.toLower).isPrefixOf (line.map Char.toLower)
  | _, _ => false

/-- A tree with the script of each package, where the scripts in `broken` fail. -/
def sampleHost (broken : List Text) : Host Unit where
  find _ name := ["./build/cmd/lfs/chapter08/".toList ++ name]
  packages _ := ["Elfutils (0.185) - ".toList,
    "Download: https://sourceware.org/ftp/elfutils/0.185/elfutils-0.185.tar.bz2".toList]
  grep := grepLiteral
  unpack _ _ _ := ()
  kernelHook _ _ := ()
  bash _ ws := ((), if ws.any fun path => decide (basename path ∈ broken) then 1 else 0)
  cleanUp _ _ := ((), 0)

def unset : Shell := ⟨[], [], [], []⟩

/-- The comment is installed once more, as `libelf` with another script. -/
theorem not_comments_ignored_eudev :
    ¬ CommentsIgnored (sampleHost []) () unset 0 ["libelf".toList, "#eudev".toList] := by
  unfold CommentsIgnored
  decide +kernel

/-- The script of `libelf` fails, and the status is 0. -/
theorem not_status_tells_libelf :
    ¬ StatusTells ["libelf".toList] (installFile (sampleHost ["libelf.cmd".toList]) () unset
      ["libelf".toList]) := by
  rintro ⟨hstatus, -⟩
  obtain ⟨s, hs, ho⟩ := hstatus.mp (by decide +kernel) 0 "libelf".toList rfl (by decide)
  have hall : (installFile (sampleHost ["libelf.cmd".toList]) () unset
      ["libelf".toList]).started.all
      (fun s => decide (s.outcome = .failed)) = true := by decide +kernel
  have hf := of_decide_eq_true (List.all_eq_true.mp hall s (List.mem_of_getElem? hs))
  rw [ho] at hf
  cases hf

end HaoosLfs.Install
