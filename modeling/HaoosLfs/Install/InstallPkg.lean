import HaoosLfs.Install.TransName
import HaoosLfs.Lib.ShellWords

/-!
# Installing the packages of a list (`install.sh:46-158`)

`uncompress_pkg` looks up the download of the key that `trans_name` has left, and
`install_pkg` unpacks it and executes the script. Both give up with `exit`, which
ends the whole script; `exit` without an argument passes on the status of the
`echo` before it.
-/

namespace HaoosLfs.Install
open Text ShellWords

/-- What the script uses of the system: the lines that `find -name` prints, those of
`packages.pkg`, whether `grep -i` finds a pattern in a line, and its commands with
their effects. `unpack` goes from the first `pushd` to the second, `cleanUp` from
`popd` to `popd`; a status comes with `bash -e` and with the last `popd`. -/
structure Host (ω : Type) where
  find : ω → Text → List Text
  packages : ω → List Text
  grep : Text → Text → Bool
  unpack : ω → Text → Text → ω
  kernelHook : ω → Text → ω
  bash : ω → List Text → ω × ℕ
  cleanUp : ω → Text → ω × ℕ

/-! ### uncompress_pkg -/

/-- `grep -A 3 -i "^$1" $PACKAGES_PATH | grep Download | head -1`, on lines that may
carry more than their text. -/
def downloadLine {α : Type} (text : α → Text) (grep : Text → Text → Bool) (key : Text)
    (lines : List α) : Option α :=
  ((grepAfter 3 (fun l => grep ('^' :: key) (text l)) 0 lines).filter fun l =>
    contains (text l) "Download".toList).head?

/-- `awk -F '/' '{print $NF}'` -/
def lastField (line : Text) : Text := ((line.splitOn '/').getLast?).getD []

/-- `awk -F '.tar' '{print $1}'`, where the dot is any character. -/
def beforeTar : Text → Text
  | [] => []
  | c :: s => if "tar".toList.isPrefixOf s then [] else c :: beforeTar s

/-- The unpacked directory, where it is not named like the archive. -/
def dirHooks : List (Text × Text) :=
  [("tcl8.6.11-src".toList, "tcl8.6.11".toList),
    ("vim-8.2.3458".toList, "vim-tags-v8.2.3458".toList),
    ("procps-ng-3.3.17".toList, "procps-3.3.17".toList)]

/-- The line after `echo $url`, without quotes. -/
def tarPkgOf (url : Text) : Text := lastField (List.intercalate [' '] (words url))

def uncompressNameOf (tarPkg : Text) : Text :=
  (dirHooks.lookup (beforeTar tarPkg)).getD (beforeTar tarPkg)

/-- A call of `install_pkg`: its arguments and the variables that it reads. -/
structure Job where
  args : List Text
  tarPkg : Text
  uncompressName : Text
  cmdFilePath : List Text
  deriving DecidableEq

/-- `../../../../$CMD_FILE_PATH`, without quotes. -/
def scriptWords (cmdFilePath : List Text) : List Text :=
  words ("../../../../".toList ++ joinLines cmdFilePath)

section
variable {ω : Type} (host : Host ω)

/-- The call of `install_pkg`, unless there is no url. -/
def jobOf (w : ω) (sh : Shell) : Option Job :=
  (downloadLine id host.grep sh.pkgFlag (host.packages w)).map fun url =>
    { args := words (sh.cmdFlag ++ ".cmd".toList)
      tarPkg := tarPkgOf url
      uncompressName := uncompressNameOf (tarPkgOf url)
      cmdFilePath := sh.cmdFilePath }

/-! ### install_pkg -/

def runScript (w : ω) (job : Job) : ω × ℕ :=
  let w := host.unpack w job.tarPkg job.uncompressName
  let path := ((scriptWords job.cmdFilePath).head?).getD []
  let w := if basename path = "kernel.cmd".toList then host.kernelHook w path else w
  host.bash w (scriptWords job.cmdFilePath)

/-- `none` when the script fails and `install.sh` exits. -/
def installPkg (w : ω) (job : Job) : Option (ω × ℕ) :=
  let r := runScript host w job
  if r.2 ≠ 0 then none else some (host.cleanUp r.1 job.uncompressName)

/-- What the loop over a list needs to know of a package: `none` when the script exits. -/
def uncompressPkg (w : ω) (sh : Shell) : Option ω :=
  (jobOf host w sh).bind fun job => (installPkg host w job).map Prod.fst

/-! ### The loop -/

inductive Outcome where
  | noUrl
  | failed
  | installed
  deriving DecidableEq

structure Started where
  entry : Text
  job : Option Job
  outcome : Outcome
  deriving DecidableEq

/-- One turn: what was started, and what the next turn finds, unless the script exits. -/
def installStep (w : ω) (sh : Shell) (entry : Text) : Started × Option (ω × Shell × ℕ) :=
  let sh := transName host.find w sh entry
  match jobOf host w sh with
  | none => (⟨entry, none, .noUrl⟩, none)
  | some job =>
    match installPkg host w job with
    | none => (⟨entry, some job, .failed⟩, none)
    | some (w, status) => (⟨entry, some job, .installed⟩, some (w, sh, status))

structure Exit where
  started : List Started
  status : ℕ
  deriving DecidableEq

def installLoop : ω → Shell → ℕ → List Text → Exit
  | _, _, status, [] => ⟨[], status⟩
  | w, sh, _, entry :: entries =>
    match installStep host w sh entry with
    | (s, none) => ⟨[s], 0⟩
    | (s, some (w, sh, status)) =>
      let r := installLoop w sh status entries
      ⟨s :: r.started, r.status⟩

/-- `install.sh -f` with a list of these entries; the variables may be in the environment. -/
def installFile (w : ω) (sh : Shell) (entries : List Text) : Exit :=
  installLoop host w sh 0 entries

def stateAfter : ω → Shell → ℕ → List Text → Option (ω × Shell × ℕ)
  | w, sh, status, [] => some (w, sh, status)
  | w, sh, _, entry :: entries =>
    (installStep host w sh entry).2.bind fun s => stateAfter s.1 s.2.1 s.2.2 entries

end

/-! ### Runs -/

section
variable {ω : Type} {host : Host ω}

theorem installStep_cases (host : Host ω) (w : ω) (sh : Shell) (entry : Text) :
    jobOf host w (transName host.find w sh entry) = none ∧
        installStep host w sh entry = (⟨entry, none, .noUrl⟩, none) ∨
      ∃ job, jobOf host w (transName host.find w sh entry) = some job ∧
        (installPkg host w job = none ∧
            installStep host w sh entry = (⟨entry, some job, .failed⟩, none) ∨
          ∃ r, installPkg host w job = some r ∧ installStep host w sh entry =
            (⟨entry, some job, .installed⟩, some (r.1, transName host.find w sh entry, r.2))) := by
  cases hj : jobOf host w (transName host.find w sh entry) with
  | none => exact .inl ⟨rfl, by simp only [installStep, hj]⟩
  | some job =>
    refine .inr ⟨job, rfl, ?_⟩
    cases hp : installPkg host w job with
    | none => exact .inl ⟨rfl, by simp only [installStep, hj, hp]⟩
    | some r => exact .inr ⟨r, rfl, by simp only [installStep, hj, hp]⟩

theorem installStep_entry (host : Host ω) (w : ω) (sh : Shell) (entry : Text) :
    (installStep host w sh entry).1.entry = entry := by
  rcases installStep_cases host w sh entry with
    ⟨-, hs⟩ | ⟨job, -, ⟨-, hs⟩ | ⟨r, -, hs⟩⟩ <;> rw [hs]

theorem installStep_outcome (host : Host ω) (w : ω) (sh : Shell) (entry : Text) :
    (installStep host w sh entry).1.outcome = .installed ↔
      (installStep host w sh entry).2.isSome := by
  rcases installStep_cases host w sh entry with
    ⟨-, hs⟩ | ⟨job, -, ⟨-, hs⟩ | ⟨r, -, hs⟩⟩ <;> rw [hs] <;> simp

theorem installStep_job (host : Host ω) (w : ω) (sh : Shell) (entry : Text) :
    (installStep host w sh entry).1.job = jobOf host w (transName host.find w sh entry) := by
  rcases installStep_cases host w sh entry with
    ⟨hj, hs⟩ | ⟨job, hj, ⟨-, hs⟩ | ⟨r, -, hs⟩⟩ <;> rw [hs, hj]

theorem installLoop_exit {w : ω} {sh : Shell} {status : ℕ} {entry : Text} {entries : List Text}
    (h : (installStep host w sh entry).2 = none) :
    installLoop host w sh status (entry :: entries) = ⟨[(installStep host w sh entry).1], 0⟩ := by
  rw [installLoop]
  rcases hs : installStep host w sh entry with ⟨s, next⟩
  rw [hs] at h
  obtain rfl : next = none := h
  rfl

theorem installLoop_next {w : ω} {sh : Shell} {status : ℕ} {entry : Text} {entries : List Text}
    {s : ω × Shell × ℕ} (h : (installStep host w sh entry).2 = some s) :
    installLoop host w sh status (entry :: entries) =
      ⟨(installStep host w sh entry).1 :: (installLoop host s.1 s.2.1 s.2.2 entries).started,
        (installLoop host s.1 s.2.1 s.2.2 entries).status⟩ := by
  rw [installLoop]
  rcases hs : installStep host w sh entry with ⟨s', next⟩
  rw [hs] at h
  obtain rfl : next = some s := h
  rfl

/-- The entries that are started are those whose keys are looked up. -/
theorem started_entries {w : ω} {sh : Shell} {status : ℕ} {entries : List Text} :
    (installLoop host w sh status entries).started.map Started.entry =
      (installList host.find (uncompressPkg host) w sh entries).map Call.entry := by
  unfold installList
  induction entries generalizing w sh status with
  | nil => rfl
  | cons entry entries ih =>
    rcases installStep_cases host w sh entry with ⟨hj, hs⟩ | ⟨job, hj, h⟩
    · have hu : uncompressPkg host w (transName host.find w sh entry) = none := by
        rw [uncompressPkg, hj]
        rfl
      rw [installLoop_exit (by rw [hs]), hs]
      simp only [runList, hu, List.map_cons, List.map_nil]
    · rcases h with ⟨hp, hs⟩ | ⟨r, hp, hs⟩
      · have hu : uncompressPkg host w (transName host.find w sh entry) = none := by
          rw [uncompressPkg, hj, Option.bind_some, hp]
          rfl
        rw [installLoop_exit (by rw [hs]), hs]
        simp only [runList, hu, List.map_cons, List.map_nil]
      · have hu : uncompressPkg host w (transName host.find w sh entry) = some r.1 := by
          rw [uncompressPkg, hj, Option.bind_some, hp]
          rfl
        have hn : (installStep host w sh entry).2 =
            some (r.1, transName host.find w sh entry, r.2) := by rw [hs]
        rw [installLoop_next hn, hs]
        simp only [runList, hu, List.map_cons, ih]

end

end HaoosLfs.Install
