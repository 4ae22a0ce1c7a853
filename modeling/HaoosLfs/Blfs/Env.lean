import HaoosLfs.Blfs.BlfsXsl
import HaoosLfs.Lib.Files
import HaoosLfs.Lib.ShellWords
import HaoosLfs.Sources.Urls

/-!
# The shell commands of the BLFS scripts (`blfs.xsl:126-169`)

For each download the template `env` sets the variables of the script, removes what an
earlier run has left, unpacks the archive and changes to its directory. The path of the script,
the url and the name of the archive stand in assignments without quotes.
-/

namespace HaoosLfs.Blfs
open Book Sources Text ShellWords

/-! ### Archives -/

/-- A character that no expansion splits or takes for a pattern. -/
def dirChar (c : Char) : Bool :=
  33 ≤ c.toNat && c.toNat < 127 && c ∉ ['/', '*', '?', '[', '\\']

def isDirName (s : Text) : Bool :=
  s ≠ [] && s.head? ≠ some '-' && s ≠ ['.'] && s ≠ ['.', '.'] && s.all dirChar

def component (path : Text) : Text := path.takeWhile (· ≠ '/')

/-- A source archive: all its members are in one directory, and their names may begin
with `./`. -/
structure Tarball where
  dotted : Bool
  dir : Text
  inside : List Text
  dir_name : isDirName dir
  member : inside ≠ []
  first_name : ∀ m ∈ inside.head?, component m = [] ∨ isDirName (component m)

/-- `tar -tf` -/
def Tarball.listing (t : Tarball) : List Text :=
  t.inside.map fun m => (if t.dotted then ['.', '/'] else []) ++ (t.dir ++ '/' :: m)

/-- The directories of the archive, as `tar -xf` creates them. -/
def Tarball.dirs (t : Tarball) : List Text :=
  t.inside.flatMap fun m => (t.dir ++ '/' :: m).inits.filter fun p =>
    decide (p ++ ['/'] <+: t.dir ++ '/' :: m)

/-- `head -n1 | sed 's@^./@@;s@/.*@@'` -/
def sedPkgdir (listing : List Text) : Text :=
  match listing.head?.getD [] with
  | _ :: '/' :: rest => component rest
  | line => component line

/-! ### The commands of a script -/

/-- Directories are made by the downloads of a script or by something else. -/
inductive Origin where
  | unpacked
  | other
  deriving DecidableEq

/-- The directories below `$SRC_DIR`, by their relative paths. -/
abbrev Disk := Files Origin

inductive Place where
  | elsewhere
  | srcDir
  | below (path : Text)
  deriving DecidableEq

/-- The path of an operand relative to a place; an empty word is no operand. -/
def Place.path (name : Text) : Place → Option Text
  | .elsewhere => none
  | .srcDir => if name = [] then none else some name
  | .below path => if name = [] then none else some (path ++ '/' :: name)

/-- The directory of a script, as the unquoted `PKG_DEST` is assigned and removed. -/
def IsScriptPath (scripts : Text) : Prop := literalFrom false scripts ∧ hasPattern scripts = false

instance (scripts : Text) : Decidable (IsScriptPath scripts) :=
  inferInstanceAs (Decidable (_ ∧ _))

/-- How the shell reads the assignments of a script: the value of a text, the archive that `tar`
opens for an unquoted value, and the directory below `$SRC_DIR` that `PKG_DEST` stands for, none
where the command fails. All this may depend on variables, on other files and on other hosts, but
not for names that stand for themselves. -/
structure Reading where
  assigns : Text → Option Text
  opens : Text → Option Text
  dest : Text → Option Text
  ends : ∀ s, endsWell s → (assigns s).isSome
  archiveName : ∀ s, s ≠ [] → IsArchiveName s → assigns s = some s ∧ opens s = some s
  scriptPath : ∀ s, IsScriptPath s → dest s = some s

/-- Only names that stand for themselves are read. -/
def strictReading : Reading where
  assigns s := if endsWell s then some (if IsArchiveName s then s else ['-']) else none
  opens s := if s ≠ [] ∧ IsArchiveName s then some s else none
  dest s := if IsScriptPath s then some s else none
  ends s h := by rw [if_pos h, Option.isSome_some]
  archiveName s hne h := by
    rw [if_pos (endsWell_of_isLiteral h.1), if_pos h, if_pos ⟨hne, h⟩]
    exact ⟨rfl, rfl⟩
  scriptPath s h := if_pos h

structure Shell where
  pkgDest : Text
  package : Text
  pkgdir : Text
  cwd : Place
  disk : Disk

/-- `${PKGDIR%-*}` -/
def withoutSuffix (s : Text) : Text :=
  if '-' ∈ s then ((s.reverse.dropWhile (· ≠ '-')).drop 1).reverse else s

/-- `${PKGDIR%-*}-build` -/
def buildDir (pkgdir : Text) : Text := withoutSuffix pkgdir ++ "-build".toList

inductive Operand where
  | pkgDest
  | pkgdir
  | buildDir

/-- `PKG_DEST` is below `$SRC_DIR`; the other operands are relative. -/
def Operand.relative (s : Shell) : Operand → Option Text
  | .pkgDest => none
  | .pkgdir => some s.pkgdir
  | .buildDir => some (Blfs.buildDir s.pkgdir)

def Operand.path (s : Shell) (o : Operand) : Option Text :=
  match o.relative s with
  | none => some s.pkgDest
  | some name => s.cwd.path name

inductive Command where
  | setPkgDest (scripts : Text)
  | setHttpUrl (url : Text)
  | setPackage (name : Text)
  | setPkgdir
  | cdSrcDir
  | cdPkgdir
  | rm (o : Operand)
  | rmIfDir (o : Operand)
  | tarX

/-- `rm -rf`, which takes a word with a leading dash for an option and fails. -/
def rm (s : Shell) (o : Operand) : Except Disk Shell :=
  if (o.relative s).bind List.head? = some '-' then .error s.disk
  else .ok { s with disk := s.disk.rmrf (o.path s).toList }

/-- `tar -xf` in this place. -/
def unpack (t : Tarball) (cwd : Place) (disk : Disk) : Disk := fun path =>
  if ∃ dir ∈ t.dirs, cwd.path dir = some path then some .unpacked else disk path

section

/- The archives in `$SRC_DIR`, by name. -/
variable (r : Reading) (archive : Text → Tarball)

/-- `tar -tf $PACKAGE` -/
def listing (package : Text) : List Text :=
  ((r.opens package).map fun name => (archive name).listing).getD []

/-- One command; with `set -e` the script ends when it fails. -/
def exec (s : Shell) : Command → Except Disk Shell
  | .setPkgDest scripts =>
    match r.dest scripts with
    | some value => .ok { s with pkgDest := value }
    | none => .error s.disk
  | .setHttpUrl url =>
    match r.assigns url with
    | some _ => .ok s
    | none => .error s.disk
  | .setPackage name =>
    match r.assigns name with
    | some value => .ok { s with package := value }
    | none => .error s.disk
  | .setPkgdir => .ok { s with pkgdir := sedPkgdir (listing r archive s.package) }
  | .cdSrcDir => .ok { s with cwd := .srcDir }
  | .cdPkgdir =>
    match s.cwd.path s.pkgdir with
    | some path => if (s.disk path).isSome then .ok { s with cwd := .below path } else .error s.disk
    | none => .ok { s with cwd := .elsewhere }
  | .rm o => rm s o
  | .rmIfDir o => if ((o.path s).bind s.disk).isSome then rm s o else .ok s
  | .tarX =>
    match r.opens s.package with
    | some name => .ok { s with disk := unpack (archive name) s.cwd s.disk }
    | none => .error s.disk

def unpackedDir (url : Text) : Text := (archive (packageName url)).dir

end

def env (scripts url : Text) : List Command :=
  [.setPkgDest scripts, .setHttpUrl url, .setPackage (packageName url), .cdSrcDir, .setPkgdir,
    .rmIfDir .pkgdir, .rmIfDir .pkgDest, .rmIfDir .buildDir, .tarX, .cdPkgdir]

def endScripts : List Command := [.cdSrcDir, .rm .pkgdir, .rmIfDir .buildDir]

/-! ### Names of directories -/

theorem isDirName_iff {s : Text} : isDirName s ↔
    s ≠ [] ∧ s.head? ≠ some '-' ∧ s ≠ ['.'] ∧ s ≠ ['.', '.'] ∧ ∀ c ∈ s, dirChar c := by
  simp [isDirName, and_assoc]

theorem dirChar_slash : dirChar '/' = false := by decide

theorem slash_dirName {s : Text} (h : isDirName s) : '/' ∉ s := by
  intro hmem
  have hchar := (isDirName_iff.mp h).2.2.2.2 '/' hmem
  rw [dirChar_slash] at hchar
  cases hchar

theorem slash_component (path : Text) : '/' ∉ component path := by
  intro hmem
  have h := List.mem_takeWhile_imp hmem
  simp at h

theorem component_append {name : Text} (h : '/' ∉ name) (rest : Text) :
    component (name ++ '/' :: rest) = name := by
  unfold component
  rw [List.takeWhile_append_of_pos fun c hc => by
    simp only [ne_eq, decide_eq_true_eq]
    rintro rfl
    exact h hc]
  simp

theorem slash_sedPkgdir (listing : List Text) : '/' ∉ sedPkgdir listing := by
  unfold sedPkgdir
  split
  · exact slash_component _
  · exact slash_component _

theorem withoutSuffix_cases (s : Text) :
    withoutSuffix s = s ∨ ∃ b, s = withoutSuffix s ++ '-' :: b := by
  unfold withoutSuffix
  by_cases h : '-' ∈ s
  · obtain ⟨r, q, hs, hr⟩ := List.eq_append_cons_of_mem (List.mem_reverse.mpr h)
    have hdrop : s.reverse.dropWhile (· ≠ '-') = '-' :: q := by
      rw [hs, List.dropWhile_append_of_pos fun c hc => by
        simp only [decide_eq_true_eq]
        rintro rfl
        exact hr hc]
      simp
    right
    rw [if_pos h, hdrop]
    exact ⟨r.reverse, by rw [← List.reverse_reverse s, hs]; simp⟩
  · exact .inl (if_neg h)

theorem head?_withoutSuffix {s : Text} (h : s.head? ≠ some '-') :
    (withoutSuffix s).head? = s.head? := by
  rcases withoutSuffix_cases s with he | ⟨b, he⟩
  · rw [he]
  · cases hw : withoutSuffix s with
    | nil =>
      rw [hw] at he
      exact absurd (by rw [he]; rfl) h
    | cons c w =>
      rw [he, hw]
      rfl

theorem withoutSuffix_subset (s : Text) : withoutSuffix s ⊆ s := by
  intro c hc
  rcases withoutSuffix_cases s with he | ⟨b, he⟩
  · rwa [he] at hc
  · rw [he]
    exact List.mem_append_left _ hc

theorem slash_buildDir {pkgdir : Text} (h : '/' ∉ pkgdir) : '/' ∉ buildDir pkgdir := by
  unfold buildDir
  rw [List.mem_append, not_or]
  exact ⟨fun hmem => h (withoutSuffix_subset pkgdir hmem), by decide⟩

/-- The name of a directory is an operand of `rm`, and so is that of its build directory. -/
theorem dash_buildDir {pkgdir : Text} (h : isDirName pkgdir) :
    (buildDir pkgdir).head? ≠ some '-' := by
  obtain ⟨hne, hdash, -⟩ := isDirName_iff.mp h
  unfold buildDir
  have hhead := head?_withoutSuffix hdash
  cases hw : withoutSuffix pkgdir with
  | nil =>
    rw [hw] at hhead
    exact absurd (List.head?_eq_none_iff.mp hhead.symm) hne
  | cons c w =>
    rw [hw] at hhead
    rw [List.cons_append, List.head?_cons, ← List.head?_cons (l := w), hhead]
    exact hdash

theorem buildDir_ne_nil (pkgdir : Text) : buildDir pkgdir ≠ [] := by
  simp [buildDir]

theorem mem_dirs_iff (t : Tarball) {name : Text} (h : '/' ∉ name) :
    name ∈ t.dirs ↔ name = t.dir := by
  have hdir := slash_dirName t.dir_name
  unfold Tarball.dirs
  rw [List.mem_flatMap]
  constructor
  · rintro ⟨m, -, hm⟩
    obtain ⟨-, hp⟩ := List.mem_filter.mp hm
    obtain ⟨rest, hrest⟩ := of_decide_eq_true hp
    rw [List.append_assoc] at hrest
    have hfirst := congrArg component hrest
    rwa [List.singleton_append, component_append h, component_append hdir] at hfirst
  · rintro rfl
    obtain ⟨m, ms, hm⟩ := List.exists_cons_of_ne_nil t.member
    refine ⟨m, by rw [hm]; exact List.mem_cons_self, List.mem_filter.mpr ⟨?_, ?_⟩⟩
    · exact List.mem_inits _ _ |>.mpr (List.prefix_append _ _)
    · refine decide_eq_true ⟨m, ?_⟩
      rw [List.append_assoc]
      rfl

theorem slash_unpackedDir (archive : Text → Tarball) (url : Text) : '/' ∉ unpackedDir archive url :=
  slash_dirName (archive (packageName url)).dir_name

/-! ### What the commands do to the top directories -/

section
variable {archive : Text → Tarball} {s : Shell}

theorem run_ok {c : Command} {cs : List Command} {s' : Shell} (h : exec r archive s c = .ok s') :
    (c :: cs).foldlM (exec r archive) s = cs.foldlM (exec r archive) s' := by
  rw [List.foldlM_cons, h]
  rfl

theorem run_error {c : Command} {cs : List Command} {disk : Disk}
    (h : exec r archive s c = .error disk) : (c :: cs).foldlM (exec r archive) s = .error disk := by
  rw [List.foldlM_cons, h]
  rfl

end

section
variable (r : Reading) (archive : Text → Tarball) {s : Shell} {x : Text}

theorem under_iff {target : Text} (hx : '/' ∉ x) : Files.Under target x ↔ x = target := by
  unfold Files.Under
  refine or_iff_left ?_
  rintro ⟨rest, rfl⟩
  exact hx (by simp)

theorem rmrf_top {disk : Disk} {target : Text} (hx : '/' ∉ x) :
    disk.rmrf [target] x = if x = target then none else disk x := by
  by_cases h : x = target
  · rw [if_pos h]
    exact Files.rmrf_of_under ⟨target, List.mem_cons_self, (under_iff hx).mpr h⟩
  · rw [if_neg h]
    refine Files.rmrf_of_not_under fun t ht hu => h ?_
    rw [List.mem_singleton.mp ht] at hu
    exact (under_iff hx).mp hu

theorem path_srcDir {o : Operand} {name : Text} (hrel : o.relative s = some name)
    (hcwd : s.cwd = .srcDir) (hne : name ≠ []) : o.path s = some name := by
  unfold Operand.path
  rw [hrel, hcwd]
  exact if_neg hne

theorem exec_rm {o : Operand} {name : Text} (hrel : o.relative s = some name)
    (hcwd : s.cwd = .srcDir) (hne : name ≠ []) (hdash : name.head? ≠ some '-') :
    ∃ disk, exec r archive s (.rm o) = .ok { s with disk := disk } ∧
      ∀ x, '/' ∉ x → disk x = if x = name then none else s.disk x := by
  have hpath := path_srcDir hrel hcwd hne
  refine ⟨s.disk.rmrf [name], ?_, fun x hx => rmrf_top hx⟩
  show rm s o = _
  unfold rm
  rw [hrel, Option.bind_some, if_neg hdash, hpath]
  rfl

theorem exec_rmIfDir {o : Operand} {name : Text} (hrel : o.relative s = some name)
    (hcwd : s.cwd = .srcDir) (hne : name ≠ []) :
    (name.head? = some '-' ∧ exec r archive s (.rmIfDir o) = .error s.disk) ∨
      ∃ disk, exec r archive s (.rmIfDir o) = .ok { s with disk := disk } ∧
        ∀ x, '/' ∉ x → disk x = if x = name then none else s.disk x := by
  have hpath := path_srcDir hrel hcwd hne
  have hexec : exec r archive s (.rmIfDir o) =
      if ((o.path s).bind s.disk).isSome then rm s o else .ok s := rfl
  rw [hexec]
  by_cases hd : ((o.path s).bind s.disk).isSome
  · rw [if_pos hd]
    by_cases hdash : name.head? = some '-'
    · refine .inl ⟨hdash, ?_⟩
      unfold rm
      rw [hrel, Option.bind_some, if_pos hdash]
    · exact .inr (exec_rm r archive hrel hcwd hne hdash)
  · rw [if_neg hd]
    refine .inr ⟨s.disk, rfl, fun x _ => ?_⟩
    by_cases hx : x = name
    · rw [hpath, Option.bind_some] at hd
      rw [if_pos hx, hx]
      exact Option.not_isSome_iff_eq_none.mp hd
    · rw [if_neg hx]

theorem exec_rmIfDir_ok {o : Operand} {name : Text} (hrel : o.relative s = some name)
    (hcwd : s.cwd = .srcDir) (hne : name ≠ []) (hdash : name.head? ≠ some '-') :
    ∃ disk, exec r archive s (.rmIfDir o) = .ok { s with disk := disk } ∧
      ∀ x, '/' ∉ x → disk x = if x = name then none else s.disk x :=
  (exec_rmIfDir r archive hrel hcwd hne).resolve_left fun h => hdash h.1

theorem exec_rmIfDir_pkgDest (h : '/' ∈ s.pkgDest) :
    ∃ disk, exec r archive s (.rmIfDir .pkgDest) = .ok { s with disk := disk } ∧
      ∀ x, '/' ∉ x → disk x = s.disk x := by
  show ∃ disk,
    (if ((Operand.path s .pkgDest).bind s.disk).isSome then rm s .pkgDest else .ok s) = _ ∧ _
  by_cases hd : ((Operand.path s .pkgDest).bind s.disk).isSome
  · rw [if_pos hd]
    refine ⟨s.disk.rmrf [s.pkgDest], rfl, fun x hx => ?_⟩
    rw [rmrf_top hx, if_neg]
    rintro rfl
    exact hx h
  · rw [if_neg hd]
    exact ⟨s.disk, rfl, fun x _ => rfl⟩

theorem unpack_top (t : Tarball) (disk : Disk) (hx : '/' ∉ x) :
    unpack t .srcDir disk x = if x = t.dir then some .unpacked else disk x := by
  have hiff : (∃ dir ∈ t.dirs, Place.path dir .srcDir = some x) ↔ x = t.dir := by
    have hne := (isDirName_iff.mp t.dir_name).1
    unfold Place.path
    constructor
    · rintro ⟨dir, hdir, hpath⟩
      split_ifs at hpath with h
      obtain rfl := Option.some.inj hpath
      exact (mem_dirs_iff t hx).mp hdir
    · intro h
      exact ⟨x, (mem_dirs_iff t hx).mpr h, if_neg (by rwa [h])⟩
  unfold unpack
  by_cases h : x = t.dir
  · rw [if_pos h, if_pos (hiff.mpr h)]
  · rw [if_neg h, if_neg fun he => h (hiff.mp he)]

theorem exec_cd_ok (path : Text) (hpath : s.cwd.path s.pkgdir = some path)
    (hdir : (s.disk path).isSome) :
    exec r archive s .cdPkgdir = .ok { s with cwd := .below path } := by
  unfold exec
  rw [hpath]
  exact if_pos hdir

theorem exec_cd_error (path : Text) (hpath : s.cwd.path s.pkgdir = some path)
    (hdir : s.disk path = none) : exec r archive s .cdPkgdir = .error s.disk := by
  unfold exec
  rw [hpath]
  exact if_neg (by simp [hdir])

end

/-- What a download changes at the top, when the archive has the directory that the
script expects. -/
def envChange (archive : Text → Tarball) (x url : Text) : Option (Option Origin) :=
  if x = unpackedDir archive url then some (some .unpacked)
  else if x = buildDir (unpackedDir archive url) then some none
  else none

/-- The assignment of a url ends well, and its archive is opened under the name in the url. -/
structure Fetchable (url : Text) : Prop where
  ends : endsWell url
  name : packageName url ≠ []
  archive : IsArchiveName (packageName url)

def Shell.prepared (archive : Text → Tarball) (scripts url : Text) (s : Shell) : Shell :=
  ⟨scripts, packageName url, sedPkgdir (archive (packageName url)).listing, .srcDir, s.disk⟩

section
variable {r : Reading} {archive : Text → Tarball} {s : Shell} {x : Text}

theorem Fetchable.opens {url : Text} (h : Fetchable url) (r : Reading) :
    r.opens (packageName url) = some (packageName url) := (r.archiveName _ h.name h.archive).2

theorem listing_of_opens {package name : Text} (h : r.opens package = some name) :
    listing r archive package = (archive name).listing := by
  rw [listing, h]
  rfl

theorem exec_tarX {name : Text} (h : r.opens s.package = some name) :
    exec r archive s .tarX = .ok { s with disk := unpack (archive name) s.cwd s.disk } := by
  simp only [exec, h]

theorem exec_setPkgDest {scripts : Text} (h : IsScriptPath scripts) :
    exec r archive s (.setPkgDest scripts) = .ok { s with pkgDest := scripts } := by
  simp only [exec, r.scriptPath scripts h]

theorem exec_setHttpUrl {url : Text} (h : endsWell url) :
    exec r archive s (.setHttpUrl url) = .ok s := by
  obtain ⟨value, hvalue⟩ := Option.isSome_iff_exists.mp (r.ends url h)
  simp only [exec, hvalue]

theorem env_assigned {scripts url value : Text} (hscripts : IsScriptPath scripts)
    (hends : endsWell url) (hvalue : r.assigns (packageName url) = some value) :
    (env scripts url).foldlM (exec r archive) s =
      [Command.rmIfDir .pkgdir, .rmIfDir .pkgDest, .rmIfDir .buildDir, .tarX, .cdPkgdir].foldlM
        (exec r archive)
        ⟨scripts, value, sedPkgdir (listing r archive value), .srcDir, s.disk⟩ := by
  have hpackage : exec r archive { s with pkgDest := scripts } (.setPackage (packageName url)) =
      .ok { s with pkgDest := scripts, package := value } := by simp only [exec, hvalue]
  rw [env, run_ok (exec_setPkgDest hscripts), run_ok (exec_setHttpUrl hends), run_ok hpackage,
    run_ok rfl, run_ok rfl]

theorem env_prepared {scripts url : Text} (hscripts : IsScriptPath scripts) (h : Fetchable url) :
    (env scripts url).foldlM (exec r archive) s =
      [Command.rmIfDir .pkgdir, .rmIfDir .pkgDest, .rmIfDir .buildDir, .tarX, .cdPkgdir].foldlM
        (exec r archive) (s.prepared archive scripts url) := by
  rw [env_assigned hscripts h.ends (r.archiveName _ h.name h.archive).1,
    listing_of_opens (h.opens r)]
  rfl

theorem run_removals (r : Reading) (archive : Text → Tarball) (hcwd : s.cwd = .srcDir)
    (hdest : '/' ∈ s.pkgDest) (hne : s.pkgdir ≠ []) (cs : List Command) :
    ((s.pkgdir.head? = some '-' ∨ (buildDir s.pkgdir).head? = some '-') ∧
      ∃ disk, (Command.rmIfDir .pkgdir :: .rmIfDir .pkgDest :: .rmIfDir .buildDir :: cs).foldlM
        (exec r archive) s = .error disk) ∨
    ∃ disk, (Command.rmIfDir .pkgdir :: .rmIfDir .pkgDest :: .rmIfDir .buildDir :: cs).foldlM
        (exec r archive) s = cs.foldlM (exec r archive) { s with disk := disk } ∧
      ∀ x, '/' ∉ x → disk x =
        if x = buildDir s.pkgdir then none else if x = s.pkgdir then none else s.disk x := by
  rcases exec_rmIfDir r archive (s := s) (o := .pkgdir) rfl hcwd hne with
    ⟨hdash, h⟩ | ⟨d₁, h₁, hd₁⟩
  · exact .inl ⟨.inl hdash, _, run_error h⟩
  obtain ⟨d₂, h₂, hd₂⟩ := exec_rmIfDir_pkgDest r archive (s := { s with disk := d₁ }) hdest
  rcases exec_rmIfDir r archive (s := { s with disk := d₂ }) (o := .buildDir) rfl hcwd
    (buildDir_ne_nil _) with ⟨hdash, h⟩ | ⟨d₃, h₃, hd₃⟩
  · refine .inl ⟨.inr hdash, d₂, ?_⟩
    rw [run_ok h₁, run_ok h₂]
    exact run_error h
  · refine .inr ⟨d₃, ?_, fun x hx => ?_⟩
    · rw [run_ok h₁, run_ok h₂, run_ok h₃]
    · have h₁' : d₁ x = if x = s.pkgdir then none else s.disk x := hd₁ x hx
      have h₂' : d₂ x = d₁ x := hd₂ x hx
      have h₃' : d₃ x = if x = buildDir s.pkgdir then none else d₂ x := hd₃ x hx
      rw [h₃', h₂', h₁']

theorem env_ok {scripts url : Text} (hscripts : IsScriptPath scripts) (hslash : '/' ∈ scripts)
    (hurl : Fetchable url)
    (hnamed : sedPkgdir (archive (packageName url)).listing = unpackedDir archive url) :
    ∃ s', (env scripts url).foldlM (exec r archive) s = .ok s' ∧
      s'.pkgdir = unpackedDir archive url ∧ s'.cwd = .below (unpackedDir archive url) ∧
        ∀ x, '/' ∉ x → s'.disk x = (envChange archive x url).getD (s.disk x) := by
  have hdir : isDirName (unpackedDir archive url) := (archive (packageName url)).dir_name
  obtain ⟨hne, hdash, -⟩ := isDirName_iff.mp hdir
  rw [env_prepared hscripts hurl]
  unfold Shell.prepared
  rw [hnamed]
  rcases run_removals r archive (s := ⟨scripts, packageName url, unpackedDir archive url, .srcDir,
    s.disk⟩) rfl hslash hne [.tarX, .cdPkgdir] with ⟨h | h, -⟩ | ⟨d, hrun, hd⟩
  · exact absurd h hdash
  · exact absurd h (dash_buildDir hdir)
  have hafter : ∀ x, '/' ∉ x → unpack (archive (packageName url)) .srcDir d x =
      if x = unpackedDir archive url then some .unpacked else d x := fun x hx => unpack_top _ _ hx
  have htop : (unpack (archive (packageName url)) .srcDir d (unpackedDir archive url)).isSome := by
    rw [hafter _ (slash_dirName hdir), if_pos rfl]
    rfl
  have hcd := exec_cd_ok r archive (unpackedDir archive url)
    (s := ⟨scripts, packageName url, unpackedDir archive url, .srcDir,
      unpack (archive (packageName url)) .srcDir d⟩) (if_neg hne) htop
  refine ⟨⟨scripts, packageName url, unpackedDir archive url, .below (unpackedDir archive url),
    unpack (archive (packageName url)) .srcDir d⟩, ?_, rfl, rfl, fun x hx => ?_⟩
  · rw [hrun, run_ok (exec_tarX (hurl.opens r)), run_ok hcd]
    rfl
  · have hbefore : d x = if x = buildDir (unpackedDir archive url) then none
        else if x = unpackedDir archive url then none else s.disk x := hd x hx
    show unpack (archive (packageName url)) .srcDir d x = _
    rw [hafter x hx, hbefore]
    unfold envChange
    by_cases h : x = unpackedDir archive url
    · rw [if_pos h, if_pos h]
      rfl
    · rw [if_neg h, if_neg h, if_neg h]
      by_cases hb : x = buildDir (unpackedDir archive url)
      · rw [if_pos hb, if_pos hb]
        rfl
      · rw [if_neg hb, if_neg hb]
        rfl

/-- An empty `PKGDIR`: nothing is removed but `-build`, which is an option for `rm`. -/
theorem run_build_error {scripts : Text} (hslash : '/' ∈ scripts)
    (hbuild : (s.disk (buildDir [])).isSome) (package : Text) (cs : List Command) :
    ∃ disk, (Command.rmIfDir .pkgdir :: .rmIfDir .pkgDest :: .rmIfDir .buildDir :: cs).foldlM
      (exec r archive) ⟨scripts, package, [], .srcDir, s.disk⟩ = .error disk := by
  obtain ⟨d, h, hd⟩ := exec_rmIfDir_pkgDest r archive
    (s := ⟨scripts, package, [], .srcDir, s.disk⟩) hslash
  have hempty : exec r archive ⟨scripts, package, [], .srcDir, s.disk⟩ (.rmIfDir .pkgdir) =
      .ok ⟨scripts, package, [], .srcDir, s.disk⟩ := rfl
  have hthere : (d (buildDir [])).isSome := by
    rw [hd _ (slash_buildDir List.not_mem_nil)]
    exact hbuild
  rw [run_ok hempty, run_ok h]
  exact ⟨d, run_error ((if_pos hthere).trans (if_pos rfl))⟩

/-- The script fails when the archive has another directory: there is nothing to change
to, or the name is empty and the directory `-build` cannot be removed. -/
theorem env_error {scripts url : Text} (hscripts : IsScriptPath scripts) (hslash : '/' ∈ scripts)
    (hurl : Fetchable url)
    (hnamed : sedPkgdir (archive (packageName url)).listing ≠ unpackedDir archive url)
    (hbuild : (s.disk (buildDir [])).isSome) :
    ∃ disk, (env scripts url).foldlM (exec r archive) s = .error disk := by
  rw [env_prepared hscripts hurl]
  unfold Shell.prepared
  have hname := slash_sedPkgdir (archive (packageName url)).listing
  generalize sedPkgdir (archive (packageName url)).listing = pkgdir at hnamed hname
  by_cases hne : pkgdir = []
  · rw [hne]
    exact run_build_error hslash hbuild _ _
  · rcases run_removals r archive (s := ⟨scripts, packageName url, pkgdir, .srcDir, s.disk⟩) rfl
      hslash hne [.tarX, .cdPkgdir] with ⟨-, h⟩ | ⟨d, hrun, hd⟩
    · exact h
    have hgone : d pkgdir = none := by
      rw [hd pkgdir hname]
      simp
    rw [hrun, run_ok (exec_tarX (hurl.opens r))]
    refine ⟨_, run_error (exec_cd_error r archive pkgdir (if_neg hne) ?_)⟩
    show unpack (archive (packageName url)) .srcDir d pkgdir = none
    rw [unpack_top _ _ hname, hgone]
    exact if_neg hnamed

/-- Where only names that stand for themselves are read, other ones make the script fail. -/
theorem env_strict_error {scripts url : Text} (hslash : '/' ∈ scripts)
    (hbuild : (s.disk (buildDir [])).isSome) (h : ¬ (IsScriptPath scripts ∧ Fetchable url)) :
    ∃ disk, (env scripts url).foldlM (exec strictReading archive) s = .error disk := by
  by_cases hscripts : IsScriptPath scripts
  · by_cases hends : endsWell url
    · by_cases hname : endsWell (packageName url)
      · -- the value is not the name of an archive, so that `PKGDIR` is empty
        obtain ⟨value, hvalue, hno⟩ : ∃ value,
            strictReading.assigns (packageName url) = some value ∧
              strictReading.opens value = none := by
          refine ⟨_, if_pos hname, if_neg ?_⟩
          split_ifs with harchive
          · exact fun hne => h ⟨hscripts, hends, hne.1, harchive⟩
          · exact fun hne => hne.2.2.2.1 rfl
        have hempty : sedPkgdir (listing strictReading archive value) = [] := by
          unfold listing
          rw [hno]
          rfl
        rw [env_assigned hscripts hends hvalue, hempty]
        exact run_build_error hslash hbuild _ _
      · rw [env, run_ok (exec_setPkgDest hscripts), run_ok (exec_setHttpUrl hends)]
        refine ⟨s.disk, run_error ?_⟩
        simp only [exec, strictReading, if_neg hname]
    · rw [env, run_ok (exec_setPkgDest hscripts)]
      refine ⟨s.disk, run_error ?_⟩
      simp only [exec, strictReading, if_neg hends]
  · refine ⟨s.disk, run_error ?_⟩
    simp only [exec, strictReading, if_neg hscripts]

end

end HaoosLfs.Blfs
