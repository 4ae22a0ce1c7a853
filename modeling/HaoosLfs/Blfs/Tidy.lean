import HaoosLfs.Blfs.BlfsXsl
import HaoosLfs.Blfs.Env

/-!
# The scripts of the BLFS sections (`blfs.xsl:65-84`)

A script unpacks the archive of each download, one after the other, executes the
commands of the section and removes the unpacked directory again. Its variables
hold what the last download has set.
-/

namespace HaoosLfs.Blfs
open Book Sources Text

/-! ### Scripts -/

/-- `./ulink/@url`, as a string. -/
def paraUrl (para : Node) : Text :=
  (((child "ulink" para.2).filterMap fun u => u.1.attr "url").head?).getD []

/-- The urls of the paras with `Download (HTTP):`. -/
def downloadUrls (body : Xml) : List Text :=
  ((descendant "para" body).filter fun p =>
    contains (stringValue p.2) "Download (HTTP):".toList).map paraUrl

/-- The commands of a section: whether they succeed under `set -e`, where they end and what
they do to the disk. They leave the variables of the script alone, and what they make is not from
a download. -/
structure Commands where
  succeed : Disk → Bool
  place : Disk → Place
  change : Disk → Disk
  made : ∀ disk path, change disk path = some .unpacked → disk path = some .unpacked

/-- Commands that leave the disk alone. -/
def keepDisk (succeed : Bool) : Commands where
  succeed _ := succeed
  place _ := .elsewhere
  change disk := disk
  made _ _ h := h

/-- The directory and the name of a script, as `PKG_DEST` has them. -/
def Entry.scripts (e : Entry) : Text := e.script.dir ++ '/' :: e.script.file

section
variable (r : Reading) (archive : Text → Tarball)

/-- The shell when the commands of the section are reached. -/
def envs (e : Entry) (disk : Disk) : Except Disk Shell :=
  ((downloadUrls e.body).flatMap (env e.scripts)).foldlM (exec r archive)
    ⟨[], [], [], .elsewhere, disk⟩

/-- The disk after a script; a command that fails ends it. -/
def runScript (commands : Commands) (e : Entry) (disk : Disk) : Disk :=
  match envs r archive e disk with
  | .error disk => disk
  | .ok s =>
    if commands.succeed s.disk then
      match endScripts.foldlM (exec r archive)
        { s with cwd := commands.place s.disk, disk := commands.change s.disk } with
      | .error disk => disk
      | .ok s => s.disk
    else commands.change s.disk

def runScripts (commands : Entry → Commands) (es : List Entry) (disk : Disk) : Disk :=
  es.foldl (fun disk e => runScript r archive (commands e) e disk) disk

/-- The commands of the section are reached in the directory of the first download. -/
def StartsInMain (e : Entry) (disk : Disk) : Prop :=
  ∃ s, envs r archive e disk = .ok s ∧
    ∀ url ∈ (downloadUrls e.body).head?, s.cwd = .below (unpackedDir archive url)

end

section
variable (archive : Text → Tarball)

/-- No download of a script has left its directory. -/
def Clean (e : Entry) (disk : Disk) : Prop :=
  ∀ url ∈ downloadUrls e.body, disk (unpackedDir archive url) ≠ some .unpacked

/-- However the names are read and whatever the commands do, where `mayFail` says which of them
can fail: in every sequence of these scripts each one starts in its main directory and removes
what it has unpacked, and nothing is left in the end. -/
def Tidy (mayFail : Entry → Prop) (es : List Entry) : Prop :=
  ∀ (r : Reading) (commands : Entry → Commands),
    (∀ e disk, (commands e).succeed disk = false → mayFail e) → ∀ disk, ∀ seq ⊆ es,
    (∀ before e after, seq = before ++ e :: after →
      StartsInMain r archive e (runScripts r archive commands before disk) ∧
        Clean archive e (runScripts r archive commands (before ++ [e]) disk)) ∧
    ∀ e ∈ seq, Clean archive e (runScripts r archive commands seq disk)

/-- This download removes a directory of this name. -/
def Removes (later name : Text) : Prop :=
  name = unpackedDir archive later ∨ name = buildDir (unpackedDir archive later)

/-- The first and the last archive have one directory, and each directory is removed
for a later download or in the end. -/
structure MainIsLast (urls : List Text) : Prop where
  named : ∀ url ∈ urls, sedPkgdir (archive (packageName url)).listing = unpackedDir archive url
  main : urls.head?.map (unpackedDir archive) = urls.getLast?.map (unpackedDir archive)
  removed : ∀ before url after, urls = before ++ url :: after →
    ∃ later ∈ after ++ urls.getLast?.toList, Removes archive later (unpackedDir archive url)

/-- The path of the script and all its archives stand for themselves in the assignments. -/
structure Readable (e : Entry) : Prop where
  path : IsScriptPath e.scripts
  urls : ∀ url ∈ downloadUrls e.body, Fetchable url

end

section
variable {r : Reading} {archive : Text → Tarball} {s : Shell} {x : Text}

/-! ### What a script does -/

theorem run_envs_ok {scripts : Text} (hscripts : IsScriptPath scripts) (hslash : '/' ∈ scripts)
    {urls : List Text} (hurls : ∀ url ∈ urls, Fetchable url)
    (hnamed : ∀ url ∈ urls,
      sedPkgdir (archive (packageName url)).listing = unpackedDir archive url) :
    ∃ s', (urls.flatMap (env scripts)).foldlM (exec r archive) s = .ok s' ∧
      (∀ last ∈ urls.getLast?, s'.pkgdir = unpackedDir archive last ∧
        s'.cwd = .below (unpackedDir archive last)) ∧
      ∀ x, '/' ∉ x →
        s'.disk x = (urls.reverse.findSome? (envChange archive x)).getD (s.disk x) := by
  induction urls using List.reverseRecOn with
  | nil => exact ⟨s, rfl, fun last hlast => (Option.not_mem_none last hlast).elim, fun x _ => rfl⟩
  | append_singleton urls url ih =>
    have hmem : url ∈ urls ++ [url] := List.mem_append_right _ List.mem_cons_self
    obtain ⟨s₁, h₁, -, hd₁⟩ := ih (fun u hu => hurls u (List.mem_append_left _ hu))
      fun u hu => hnamed u (List.mem_append_left _ hu)
    obtain ⟨s₂, h₂, hpkgdir, hcwd, hd₂⟩ := env_ok (s := s₁) hscripts hslash (hurls url hmem)
      (hnamed url hmem)
    refine ⟨s₂, ?_, fun last hlast => ?_, fun x hx => ?_⟩
    · rw [List.flatMap_append, List.foldlM_append, h₁, List.flatMap_singleton]
      exact h₂
    · rw [List.getLast?_concat] at hlast
      obtain rfl := Option.some.inj hlast
      exact ⟨hpkgdir, hcwd⟩
    · rw [hd₂ x hx, hd₁ x hx, List.reverse_append, List.reverse_singleton, List.singleton_append,
        List.findSome?_cons]
      cases envChange archive x url with
      | none => rfl
      | some change => rfl

theorem envChange_build (url : Text) : envChange archive (buildDir []) url = none := by
  have hdir : isDirName (unpackedDir archive url) := (archive (packageName url)).dir_name
  have hhead : (buildDir []).head? = some '-' := rfl
  unfold envChange
  rw [if_neg, if_neg]
  · intro h
    exact dash_buildDir hdir (by rw [← h, hhead])
  · intro h
    exact (isDirName_iff.mp hdir).2.1 (by rw [← h, hhead])

/-- A download whose names stand for themselves, with the directory that the script expects. -/
def GoesWell (archive : Text → Tarball) (scripts url : Text) : Prop :=
  (IsScriptPath scripts ∧ Fetchable url) ∧
    sedPkgdir (archive (packageName url)).listing = unpackedDir archive url

/-- With the directory `-build` there, one download that goes wrong is enough for the script to
fail. -/
theorem run_envs_error {scripts : Text} (hslash : '/' ∈ scripts) {urls : List Text}
    (hbad : ∃ url ∈ urls, ¬ GoesWell archive scripts url)
    (hbuild : (s.disk (buildDir [])).isSome) :
    ∃ disk, (urls.flatMap (env scripts)).foldlM (exec strictReading archive) s = .error disk := by
  induction urls generalizing s with
  | nil =>
    obtain ⟨url, hurl, -⟩ := hbad
    cases hurl
  | cons url urls ih =>
    rw [List.flatMap_cons, List.foldlM_append]
    by_cases hgood : GoesWell archive scripts url
    · obtain ⟨s₁, h₁, -, -, hd₁⟩ := env_ok (r := strictReading) (s := s) hgood.1.1 hslash
        hgood.1.2 hgood.2
      rw [h₁]
      apply ih
      · obtain ⟨u, hu, hne⟩ := hbad
        rcases List.mem_cons.mp hu with rfl | hu
        · exact absurd hgood hne
        · exact ⟨u, hu, hne⟩
      · rw [hd₁ _ (slash_buildDir List.not_mem_nil), envChange_build]
        exact hbuild
    · have hwrong : ∃ disk, (env scripts url).foldlM (exec strictReading archive) s =
          .error disk := by
        by_cases hread : IsScriptPath scripts ∧ Fetchable url
        · exact env_error hread.1 hslash hread.2 (fun hnamed => hgood ⟨hread, hnamed⟩) hbuild
        · exact env_strict_error hslash hbuild hread
      obtain ⟨disk, h⟩ := hwrong
      rw [h]
      exact ⟨disk, rfl⟩

theorem slash_scripts (e : Entry) : '/' ∈ e.scripts := by
  simp [Entry.scripts]

instance (later name : Text) : Decidable (Removes archive later name) :=
  inferInstanceAs (Decidable (_ ∨ _))

variable (r archive) in
theorem run_endScripts (last : Text) (hpkgdir : s.pkgdir = unpackedDir archive last) :
    ∃ s', endScripts.foldlM (exec r archive) s = .ok s' ∧
      ∀ x, '/' ∉ x → s'.disk x = if Removes archive last x then none else s.disk x := by
  have hdir : isDirName (unpackedDir archive last) := (archive (packageName last)).dir_name
  obtain ⟨hne, hdash, -⟩ := isDirName_iff.mp hdir
  obtain ⟨d₁, h₁, hd₁⟩ := exec_rm r archive (s := { s with cwd := .srcDir })
    (o := .pkgdir) (congrArg some hpkgdir) rfl hne hdash
  obtain ⟨d₂, h₂, hd₂⟩ := exec_rmIfDir_ok r archive
    (s := { s with cwd := .srcDir, disk := d₁ }) (o := .buildDir)
    (congrArg (fun p => some (buildDir p)) hpkgdir) rfl (buildDir_ne_nil _) (dash_buildDir hdir)
  refine ⟨{ s with cwd := .srcDir, disk := d₂ }, ?_, fun x hx => ?_⟩
  · unfold endScripts
    rw [run_ok rfl, run_ok h₁, run_ok h₂]
    rfl
  · have hd₂' : d₂ x = if x = buildDir (unpackedDir archive last) then none else d₁ x := hd₂ x hx
    have hd₁' : d₁ x = if x = unpackedDir archive last then none else s.disk x := hd₁ x hx
    show d₂ x = _
    rw [hd₂', hd₁']
    unfold Removes
    by_cases h : x = unpackedDir archive last
    · simp [h]
    · simp [h]

theorem envChange_unpacked_iff {url : Text} :
    envChange archive x url = some (some .unpacked) ↔ x = unpackedDir archive url := by
  unfold envChange
  split_ifs with h <;> simp [h]

theorem envChange_none_iff {url : Text} :
    envChange archive x url = none ↔ ¬ Removes archive url x := by
  unfold envChange Removes
  split_ifs with h hb <;> simp [*]

/-- After these downloads a directory is there when one of them unpacks it and no later
one removes it, or when it was there and none of them changes it. -/
theorem unpacked_iff {urls : List Text} {old : Option Origin} :
    (urls.reverse.findSome? (envChange archive x)).getD old = some .unpacked ↔
      (∃ before url after, urls = before ++ url :: after ∧ x = unpackedDir archive url ∧
        ∀ later ∈ after, ¬ Removes archive later x) ∨
      (∀ url ∈ urls, ¬ Removes archive url x) ∧ old = some .unpacked := by
  constructor
  · intro h
    cases hf : urls.reverse.findSome? (envChange archive x) with
    | none =>
      rw [hf, Option.getD_none] at h
      refine .inr ⟨fun url hurl => ?_, h⟩
      exact envChange_none_iff.mp (List.findSome?_eq_none_iff.mp hf url (List.mem_reverse.mpr hurl))
    | some change =>
      rw [hf, Option.getD_some] at h
      obtain ⟨after, url, before, hsplit, hchange, hafter⟩ := List.findSome?_eq_some_iff.mp hf
      rw [h] at hchange
      refine .inl ⟨before.reverse, url, after.reverse, ?_, envChange_unpacked_iff.mp hchange,
        fun later hlater => envChange_none_iff.mp (hafter later (List.mem_reverse.mp hlater))⟩
      rw [← List.reverse_reverse urls, hsplit]
      simp
  · rintro (⟨before, url, after, rfl, hx, hafter⟩ | ⟨hkept, hold⟩)
    · have hnone : after.reverse.findSome? (envChange archive x) = none :=
        List.findSome?_eq_none_iff.mpr fun later hlater =>
          envChange_none_iff.mpr (hafter later (List.mem_reverse.mp hlater))
      rw [List.reverse_append, List.reverse_cons, List.append_assoc, List.findSome?_append, hnone,
        List.singleton_append, List.findSome?_cons, envChange_unpacked_iff.mpr hx]
      rfl
    · have hnone : urls.reverse.findSome? (envChange archive x) = none :=
        List.findSome?_eq_none_iff.mpr fun url hurl =>
          envChange_none_iff.mpr (hkept url (List.mem_reverse.mp hurl))
      rw [hnone]
      exact hold

theorem runScript_top {e : Entry} {last : Text} (hlast : last ∈ (downloadUrls e.body).getLast?)
    (hreadable : Readable e) (hnamed : ∀ url ∈ downloadUrls e.body,
      sedPkgdir (archive (packageName url)).listing = unpackedDir archive url)
    (commands : Commands) (disk : Disk) :
    ∃ s, envs r archive e disk = .ok s ∧ s.cwd = .below (unpackedDir archive last) ∧
      (∀ x, '/' ∉ x → s.disk x =
        ((downloadUrls e.body).reverse.findSome? (envChange archive x)).getD (disk x)) ∧
      ∀ x, '/' ∉ x → runScript r archive commands e disk x =
        if commands.succeed s.disk ∧ Removes archive last x then none
        else commands.change s.disk x := by
  obtain ⟨s, hs, hend, hd⟩ := run_envs_ok (r := r) (s := ⟨[], [], [], .elsewhere, disk⟩)
    hreadable.path (slash_scripts e) hreadable.urls hnamed
  obtain ⟨hpkgdir, hcwd⟩ := hend last hlast
  obtain ⟨s', hs', hd'⟩ := run_endScripts r archive last
    (s := { s with cwd := commands.place s.disk, disk := commands.change s.disk }) hpkgdir
  refine ⟨s, hs, hcwd, hd, fun x hx => ?_⟩
  have henvs : envs r archive e disk = .ok s := hs
  by_cases hok : commands.succeed s.disk
  · have hrun : runScript r archive commands e disk = s'.disk := by
      simp only [runScript, henvs, hs', if_pos hok]
    rw [hrun, hd' x hx]
    simp only [hok, true_and]
  · have hrun : runScript r archive commands e disk = commands.change s.disk := by
      simp only [runScript, henvs, if_neg hok]
    rw [hrun, if_neg fun h => hok h.1]

/-- A directory that is there after a script whose commands succeed is one of its downloads,
which neither a later one nor the end has removed, or it was there before. -/
theorem unpacked_of_runScript {e : Entry} {last : Text}
    (hlast : last ∈ (downloadUrls e.body).getLast?)
    (hreadable : Readable e) (hnamed : ∀ url ∈ downloadUrls e.body,
      sedPkgdir (archive (packageName url)).listing = unpackedDir archive url)
    {commands : Commands} (hok : ∀ disk, commands.succeed disk) {disk : Disk} (hx : '/' ∉ x)
    (h : runScript r archive commands e disk x = some .unpacked) :
    ¬ Removes archive last x ∧
      ((∃ before url after, downloadUrls e.body = before ++ url :: after ∧
        x = unpackedDir archive url ∧ ∀ later ∈ after, ¬ Removes archive later x) ∨
      (∀ url ∈ downloadUrls e.body, ¬ Removes archive url x) ∧ disk x = some .unpacked) := by
  obtain ⟨s, -, -, hd, hrun⟩ := runScript_top hlast hreadable hnamed commands disk
  rw [hrun x hx] at h
  split_ifs at h with hremoved
  have hmade := commands.made s.disk x h
  rw [hd x hx] at hmade
  exact ⟨fun hend => hremoved ⟨hok _, hend⟩, unpacked_iff.mp hmade⟩

theorem clean_runScript {e : Entry} (hreadable : Readable e)
    (h : MainIsLast archive (downloadUrls e.body)) {commands : Commands}
    (hok : ∀ disk, commands.succeed disk) (disk : Disk) :
    Clean archive e (runScript r archive commands e disk) := by
  intro url hurl hleft
  obtain ⟨last, hlast⟩ : ∃ last, last ∈ (downloadUrls e.body).getLast? :=
    ⟨_, List.getLast?_eq_some_getLast (List.ne_nil_of_mem hurl)⟩
  obtain ⟨hend, ⟨before, url', after, hsplit, hx, hafter⟩ | ⟨hkept, -⟩⟩ :=
    unpacked_of_runScript hlast hreadable h.named hok (slash_unpackedDir archive url) hleft
  · obtain ⟨later, hlater, hremoved⟩ := h.removed before url' after hsplit
    rw [← hx] at hremoved
    rcases List.mem_append.mp hlater with hlater | hlater
    · exact hafter later hlater hremoved
    · rw [Option.mem_toList, hlast] at hlater
      obtain rfl := Option.some.inj hlater
      exact hend hremoved
  · exact hkept url hurl (.inl rfl)

theorem startsInMain {e : Entry} (hne : downloadUrls e.body ≠ []) (hreadable : Readable e)
    (h : MainIsLast archive (downloadUrls e.body)) (disk : Disk) :
    StartsInMain r archive e disk := by
  have hlast := List.getLast?_eq_some_getLast hne
  obtain ⟨s, hs, hcwd, -⟩ := runScript_top hlast hreadable h.named (keepDisk true) disk
  refine ⟨s, hs, fun url hurl => ?_⟩
  have hmain := h.main
  rw [hlast, hurl, Option.map_some, Option.map_some] at hmain
  rw [hcwd, Option.some.inj hmain]

theorem clean_runScripts {commands : Entry → Commands} {disk : Disk} {seq : List Entry}
    (hne : ∀ e ∈ seq, downloadUrls e.body ≠ [])
    (h : ∀ e ∈ seq, Readable e ∧ MainIsLast archive (downloadUrls e.body) ∧
      ∀ disk, (commands e).succeed disk) :
    ∀ e ∈ seq, Clean archive e (runScripts r archive commands seq disk) := by
  induction seq using List.reverseRecOn with
  | nil => exact List.forall_mem_nil _
  | append_singleton seq last ih =>
    have hmem : last ∈ seq ++ [last] := List.mem_append_right _ List.mem_cons_self
    obtain ⟨hreadable, hmain, hok⟩ := h last hmem
    have hclean := clean_runScript (r := r) hreadable hmain hok
      (runScripts r archive commands seq disk)
    have hrun : runScripts r archive commands (seq ++ [last]) disk =
        runScript r archive (commands last) last (runScripts r archive commands seq disk) := by
      unfold runScripts
      rw [List.foldl_append]
      rfl
    rw [hrun]
    intro e he
    rcases List.mem_append.mp he with hold | hnew
    · intro url hurl hleft
      obtain ⟨-, ⟨before, url', after, hsplit, hx, -⟩ | ⟨-, hbefore⟩⟩ :=
        unpacked_of_runScript (List.getLast?_eq_some_getLast (hne last hmem)) hreadable
          hmain.named hok (slash_unpackedDir archive url) hleft
      · rw [hx] at hleft
        exact hclean url' (by rw [hsplit]; simp) hleft
      · exact ih (fun e' he' => hne e' (List.mem_append_left _ he'))
          (fun e' he' => h e' (List.mem_append_left _ he')) e hold url hurl hbefore
    · rw [List.mem_singleton.mp hnew]
      exact hclean

/-- A script that starts on every disk has archives that are read by their names and have the
expected directory. -/
theorem readable_of_starts {e : Entry} (hne : downloadUrls e.body ≠ [])
    (hstart : ∀ disk, StartsInMain strictReading archive e disk) :
    Readable e ∧ ∀ url ∈ downloadUrls e.body,
      sedPkgdir (archive (packageName url)).listing = unpackedDir archive url := by
  suffices hgood : ∀ url ∈ downloadUrls e.body, GoesWell archive e.scripts url by
    obtain ⟨url, hurl⟩ := List.exists_mem_of_ne_nil _ hne
    exact ⟨⟨(hgood url hurl).1.1, fun u hu => (hgood u hu).1.2⟩, fun u hu => (hgood u hu).2⟩
  by_contra! hbad
  obtain ⟨disk, hfail⟩ := run_envs_error (slash_scripts e) hbad
    (s := ⟨[], [], [], .elsewhere, fun _ => some .other⟩) rfl
  obtain ⟨s, hs, -⟩ := hstart fun _ => some .other
  rw [show envs strictReading archive e (fun _ => some .other) = .error disk from hfail] at hs
  cases hs

theorem mainIsLast_of_clean {e : Entry} (hne : downloadUrls e.body ≠ []) (hreadable : Readable e)
    (hnamed : ∀ url ∈ downloadUrls e.body,
      sedPkgdir (archive (packageName url)).listing = unpackedDir archive url)
    (hstart : ∀ disk, StartsInMain r archive e disk)
    (hclean : ∀ disk, Clean archive e (runScript r archive (keepDisk true) e disk)) :
    MainIsLast archive (downloadUrls e.body) := by
  have hlast := List.getLast?_eq_some_getLast hne
  obtain ⟨s, hs, hcwd, hd, hrun⟩ := runScript_top hlast hreadable hnamed (keepDisk true)
    fun _ => none
  refine ⟨hnamed, ?_, fun before url after hsplit => ?_⟩
  · obtain ⟨first, hfirst⟩ : ∃ first, (downloadUrls e.body).head? = some first :=
      ⟨_, List.head?_eq_some_head hne⟩
    obtain ⟨s', hs', hmain⟩ := hstart fun _ => none
    rw [hs] at hs'
    obtain rfl := Except.ok.inj hs'
    have hsame := hmain first hfirst
    rw [hcwd] at hsame
    rw [hlast, hfirst, Option.map_some, Option.map_some, Place.below.inj hsame]
  · by_contra! hno
    have hslash := slash_unpackedDir archive url
    apply hclean (fun _ => none) url (by rw [hsplit]; simp)
    rw [hrun _ hslash, if_neg]
    · show s.disk _ = _
      rw [hd _ hslash, unpacked_iff]
      exact .inl ⟨before, url, after, hsplit, rfl, fun later hlater =>
        hno later (List.mem_append_left _ hlater)⟩
    · refine fun hend => hno _ (List.mem_append_right _ ?_) hend.2
      rw [Option.mem_toList]
      exact hlast

theorem not_clean_of_fails {e : Entry} (hne : downloadUrls e.body ≠ []) (hreadable : Readable e)
    (hnamed : ∀ url ∈ downloadUrls e.body,
      sedPkgdir (archive (packageName url)).listing = unpackedDir archive url) (disk : Disk) :
    ¬ Clean archive e (runScript r archive (keepDisk false) e disk) := by
  have hlast := List.getLast?_eq_some_getLast hne
  obtain ⟨s, -, -, hd, hrun⟩ := runScript_top (r := r) hlast hreadable hnamed (keepDisk false) disk
  have hslash := slash_unpackedDir archive ((downloadUrls e.body).getLast hne)
  intro hclean
  apply hclean _ (List.getLast_mem hne)
  rw [hrun _ hslash, if_neg fun h => Bool.false_ne_true h.1]
  show s.disk _ = _
  rw [hd _ hslash, unpacked_iff]
  refine .inl ⟨(downloadUrls e.body).dropLast, (downloadUrls e.body).getLast hne, [], ?_, rfl,
    List.forall_mem_nil _⟩
  rw [List.dropLast_append_getLast]

theorem mainIsLast_singleton {url : Text}
    (h : sedPkgdir (archive (packageName url)).listing = unpackedDir archive url) :
    MainIsLast archive [url] := by
  refine ⟨List.forall_mem_singleton.mpr h, rfl, fun before url' after hsplit => ?_⟩
  refine ⟨url, List.mem_append_right _ List.mem_cons_self, .inl ?_⟩
  have hmem : url' ∈ [url] := by
    rw [hsplit]
    simp
  rw [List.mem_singleton.mp hmem]

end

/-! ### A section with two downloads -/

def evdevUrl : Text := "https://www.freedesktop.org/software/libevdev/libevdev-1.13.1.tar.xz".toList

def driverUrl : Text :=
  "https://www.x.org/pub/individual/driver/xf86-input-evdev-2.10.6.tar.bz2".toList

def evdevTar : Tarball :=
  ⟨false, "libevdev-1.13.1".toList, [[]], by decide, by decide, by decide⟩

def driverTar : Tarball :=
  ⟨false, "xf86-input-evdev-2.10.6".toList, [[]], by decide, by decide, by decide⟩

def driverArchive (name : Text) : Tarball :=
  if name = "libevdev-1.13.1.tar.xz".toList then evdevTar else driverTar

def downloadPara (url : Text) (rest : Xml) : Xml :=
  .node (.element "para" [])
    (.node (.text "Download (HTTP): ".toList) .nil
      (.node (.element "ulink" [("url", url)]) .nil .nil)) rest

def makeScreen : Xml :=
  .node (.element "screen" [])
    (.node (.element "userinput" []) (.node (.text "make".toList) .nil .nil) .nil) .nil

def driverSection (urls : List Text) : Entry :=
  ⟨"x".toList, 24, 9, "xorg-driver".toList, urls.foldr downloadPara makeScreen⟩

end HaoosLfs.Blfs
