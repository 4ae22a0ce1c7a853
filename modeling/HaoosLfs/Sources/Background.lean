import HaoosLfs.Lib.Tasks
import HaoosLfs.Sources.Download

/-!
# Downloads beside the build (`download-lfs-source.sh:22-54`, `lfs.sh:88-109`)

Each download is a process of its own, which goes on while `lfs.sh` continues with
the steps after the loop. The identifiers in `pid_array` are not used again.
-/

namespace HaoosLfs.Sources
open Text Tasks

/-- What the two scripts find: the files beside them, the lines of `urls.lst` and two
variables of the configuration. -/
structure Setup where
  md5sum : Md5sum
  dir : Files Text
  urlsLst : List Text
  getpkg : Text
  config : Option Text

/-- What comes next; `download-lfs-source.sh` ends with the first `chown`. -/
inductive Stage where
  | loop (rest : List Text)
  | chownSources
  | copyConfig
  | buildMakefile
  | chownJhalfsdir
  | make
  | exited
  deriving DecidableEq

structure MainScript where
  stage : Stage
  loop : Loop
  deriving DecidableEq

namespace Setup
variable (u : Setup)

/-- `[ $GETPKG == "y" ]` -/
def start : MainScript :=
  ⟨if u.getpkg = ['y'] then .loop u.urlsLst else .chownSources, .start⟩

/-- A step of `lfs.sh`, with the downloads that it puts into the background. -/
def scriptStep (s : MainScript) : Option (MainScript × List Text) :=
  match s.stage with
  | .loop (line :: rest) =>
    let l := downloadStep u.md5sum u.dir s.loop line rest
    some (⟨.loop (if takesLines u.md5sum u.dir line then [] else rest), l⟩,
      l.fetched.drop s.loop.fetched.length)
  | .loop [] => some (⟨.chownSources, s.loop⟩, [])
  | .chownSources => some (⟨.copyConfig, s.loop⟩, [])
  | .copyConfig => some (⟨if u.config.isSome then .buildMakefile else .exited, s.loop⟩, [])
  | .buildMakefile => some (⟨.chownJhalfsdir, s.loop⟩, [])
  | .chownJhalfsdir => some (⟨.make, s.loop⟩, [])
  | .make => none
  | .exited => none

/-- In whatever order the downloads end and the script goes on: when it comes to `make`,
no download is in progress and each of them has written its file. -/
def BuildsOnComplete : Prop :=
  ∀ w, Reachable u.scriptStep u.start w → w.main.stage = .make →
    w.running = [] ∧ ∀ url ∈ w.main.loop.fetched, url ∈ w.done

/-! ### The script on its own -/

def looped : Loop :=
  if u.getpkg = ['y'] then downloadLoop u.md5sum u.dir .start u.urlsLst else .start

def Progress (l : Loop) : Stage → Prop
  | .loop rest => downloadLoop u.md5sum u.dir l rest = u.looped
  | .chownSources => l = u.looped
  | .copyConfig => l = u.looped
  | .buildMakefile => l = u.looped ∧ u.config.isSome
  | .chownJhalfsdir => l = u.looped ∧ u.config.isSome
  | .make => l = u.looped ∧ u.config.isSome
  | .exited => l = u.looped

end Setup

variable {u : Setup}

theorem downloadLoop_cons (l : Loop) (line : Text) (rest : List Text) :
    downloadLoop u.md5sum u.dir l (line :: rest) =
      downloadLoop u.md5sum u.dir (downloadStep u.md5sum u.dir l line rest)
        (if takesLines u.md5sum u.dir line then [] else rest) := by
  rw [downloadLoop]
  split_ifs <;> rfl

theorem scriptStep_progress {s s' : MainScript} {new : List Text}
    (h : u.scriptStep s = some (s', new)) (hs : u.Progress s.loop s.stage) :
    s'.loop.fetched = s.loop.fetched ++ new ∧ u.Progress s'.loop s'.stage := by
  rcases s with ⟨stage, l⟩
  cases stage with
  | loop rest =>
    have hloop : downloadLoop u.md5sum u.dir l rest = u.looped := hs
    cases rest with
    | nil =>
      cases h
      exact ⟨(List.append_nil _).symm, hloop⟩
    | cons line rest =>
      cases h
      constructor
      · show (downloadStep u.md5sum u.dir l line rest).fetched = _
        rw [downloadStep_fetched, List.drop_left]
      · show downloadLoop u.md5sum u.dir _ _ = u.looped
        rw [← downloadLoop_cons]
        exact hloop
  | chownSources =>
    cases h
    exact ⟨(List.append_nil _).symm, hs⟩
  | copyConfig =>
    cases h
    refine ⟨(List.append_nil _).symm, ?_⟩
    show u.Progress l (if u.config.isSome then .buildMakefile else .exited)
    by_cases hc : u.config.isSome
    · rw [if_pos hc]
      exact ⟨hs, hc⟩
    · rw [if_neg hc]
      exact hs
  | buildMakefile =>
    cases h
    exact ⟨(List.append_nil _).symm, hs⟩
  | chownJhalfsdir =>
    cases h
    exact ⟨(List.append_nil _).symm, hs⟩
  | make => cases h
  | exited => cases h

theorem start_progress : u.Progress u.start.loop u.start.stage := by
  unfold Setup.start
  by_cases hget : u.getpkg = ['y']
  · rw [if_pos hget]
    show _ = u.looped
    rw [Setup.looped, if_pos hget]
  · rw [if_neg hget]
    show _ = u.looped
    rw [Setup.looped, if_neg hget]

theorem alone_progress {started : List Text} {s : MainScript}
    (h : Alone u.scriptStep u.start started s) :
    started = s.loop.fetched ∧ u.Progress s.loop s.stage := by
  induction h with
  | refl => exact ⟨rfl, start_progress⟩
  | tail _ hstep ih =>
    obtain ⟨hfetched, hprogress⟩ := scriptStep_progress hstep ih.2
    rw [ih.1]
    exact ⟨hfetched.symm, hprogress⟩

theorem alone_loop {rest started : List Text} {l : Loop}
    (h : Alone u.scriptStep u.start started ⟨.loop rest, l⟩) :
    ∃ started', Alone u.scriptStep u.start started'
      ⟨.loop [], downloadLoop u.md5sum u.dir l rest⟩ := by
  induction rest generalizing started l with
  | nil => exact ⟨started, h⟩
  | cons line rest ih =>
    have hnext := h.tail (rfl : u.scriptStep ⟨.loop (line :: rest), l⟩ = some (_, _))
    rw [downloadLoop_cons]
    by_cases ht : takesLines u.md5sum u.dir line
    · rw [if_pos ht] at hnext ⊢
      exact ⟨_, hnext⟩
    · rw [if_neg ht] at hnext ⊢
      exact ih hnext

theorem alone_make (hc : u.config.isSome) :
    ∃ started, Alone u.scriptStep u.start started ⟨.make, u.looped⟩ := by
  obtain ⟨started, hchown⟩ :
      ∃ started, Alone u.scriptStep u.start started ⟨.chownSources, u.looped⟩ := by
    by_cases hget : u.getpkg = ['y']
    · have hstart : u.start = ⟨.loop u.urlsLst, .start⟩ := by
        rw [Setup.start, if_pos hget]
      have h₀ : Alone u.scriptStep u.start [] ⟨.loop u.urlsLst, .start⟩ := by
        rw [← hstart]
        exact .refl
      obtain ⟨started, hloop⟩ := alone_loop h₀
      rw [Setup.looped, if_pos hget]
      exact ⟨_, hloop.tail rfl⟩
    · have hstart : u.start = ⟨.chownSources, u.looped⟩ := by
        rw [Setup.start, Setup.looped, if_neg hget, if_neg hget]
      rw [← hstart]
      exact ⟨[], .refl⟩
  have hconfig : u.scriptStep ⟨.copyConfig, u.looped⟩ = some (⟨.buildMakefile, u.looped⟩, []) := by
    show some (_, _) = _
    rw [if_pos hc]
  exact ⟨_, (((hchown.tail rfl).tail hconfig).tail rfl).tail rfl⟩

theorem looped_fetched_eq_nil_iff :
    u.looped.fetched = [] ↔ u.getpkg ≠ ['y'] ∨ Checked u.md5sum u.dir u.urlsLst := by
  unfold Setup.looped
  by_cases hget : u.getpkg = ['y']
  · rw [if_pos hget, downloadLoop_fetched, or_iff_right (not_not.mpr hget)]
    exact and_iff_right rfl
  · rw [if_neg hget]
    exact iff_of_true rfl (.inl hget)

/-! ### Beside the downloads -/

theorem buildsOnComplete_iff_none_running :
    u.BuildsOnComplete ↔
      ∀ w, Reachable u.scriptStep u.start w → w.main.stage = .make → w.running = [] := by
  constructor
  · intro h w hw hmake
    exact (h w hw hmake).1
  · intro h w hw hmake
    have hnone := h w hw hmake
    obtain ⟨started, halone, hperm⟩ := hw.alone
    refine ⟨hnone, fun url hurl => ?_⟩
    rw [← (alone_progress halone).1] at hurl
    have hmem := hperm.subset hurl
    rwa [hnone] at hmem

/-- For every list of urls, the build starts on complete files in every order of steps
exactly when it is not reached, nothing is to be downloaded, or for every line that the loop
reads the file is there and `md5sum` prints the listed checksum: no download is ever waited
for. -/
theorem builds_on_complete_iff (u : Setup) :
    u.BuildsOnComplete ↔
      u.config = none ∨ u.getpkg ≠ ['y'] ∨ Checked u.md5sum u.dir u.urlsLst := by
  rw [buildsOnComplete_iff_none_running, none_running_iff fun s : MainScript => s.stage = .make,
    ← looped_fetched_eq_nil_iff]
  constructor
  · intro h
    cases hc : u.config with
    | none => exact .inl rfl
    | some path =>
      obtain ⟨started, halone⟩ := alone_make (u := u) (by rw [hc]; rfl)
      right
      rw [← (alone_progress halone).1]
      exact h started _ halone rfl
  · intro h started s halone hmake
    obtain ⟨hstarted, hprogress⟩ := alone_progress halone
    rw [hmake] at hprogress
    obtain ⟨hloop, hc⟩ := hprogress
    rw [hstarted, hloop]
    exact h.resolve_left fun hnone => by simp [hnone] at hc

def m4Setup : Setup :=
  ⟨md5OfEmpty, fun _ => none, [m4Line], ['y'], some "kernel-config".toList⟩

/-- `make` comes before the download has ended. -/
theorem not_builds_on_complete_m4 : ¬ m4Setup.BuildsOnComplete := by
  intro h
  obtain ⟨started, halone⟩ := alone_make (u := m4Setup) rfl
  have hrunning := (h _ halone.reachable rfl).1
  have hfetched := (alone_progress halone).1
  rw [show started = [] from hrunning] at hfetched
  revert hfetched
  decide +kernel

end HaoosLfs.Sources
