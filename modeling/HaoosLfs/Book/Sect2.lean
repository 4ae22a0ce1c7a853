import HaoosLfs.Book.Userinput
import HaoosLfs.Lib.Lists

/-!
# The template `sect2` (`lfs.xsl:204-349`)

The commands of a section are written in three groups; between them stand the texts of
the package management, and the locales of glibc.
-/

namespace HaoosLfs.Book
open Text

/-- A section: the document, the ancestors of the `sect2`, and its node. -/
structure Sect2 where
  doc : Xml
  ancestors : List Node
  node : Node

/-- A `userinput` in a `screen`, with its number among the nodes of the section. -/
abbrev Command := Located × ℕ

def parent (u : Located) : Option Node := u.1.head?

/-- `../@id` -/
def parentId (s : Sect2) : Option Text := (s.ancestors.head?).bind (·.1.attr "id")

def ofSection (s : Sect2) (id : String) : Bool := parentId s = some id.toList

/-- `.//screen/userinput` -/
def screenCommands (s : Sect2) : List Command :=
  (located (s.node :: s.ancestors) s.node.2).zipIdx.filter fun c =>
    c.1.2.1.isElement "userinput" && (parent c.1).any fun sc => sc.1.isElement "screen"

def remapOf (c : Command) : Option Text := remap c.1.2

def dumped (c : Command) : Bool := (parent c.1).any isDumped

/-- `.//screen[not(@role) or @role != 'nodump']/userinput[...]` -/
def select (s : Sect2) (q : Option Text → Bool) : List Command :=
  (screenCommands s).filter fun c => dumped c && q (remapOf c)

def firstRemap (dejagnu systemd : Bool) (r : Option Text) : Bool :=
  r = some "pre".toList || r = some "configure".toList || r = some "make".toList ||
    (r = some "test".toList && !dejagnu && !systemd)

def installRemap (r : Option Text) : Bool := r = some "install".toList

def lastRemap (dejagnu systemd : Bool) (r : Option Text) : Bool :=
  r = none || r = some "adjust".toList || (r = some "test".toList && dejagnu) ||
    (r = some "test".toList && systemd)

def firstCommands (s : Sect2) : List Command :=
  select s (firstRemap (ofSection s "ch-tools-dejagnu") (ofSection s "ch-system-systemd"))

def installCommands (s : Sect2) : List Command := select s installRemap

def lastCommands (s : Sect2) : List Command :=
  select s (lastRemap (ofSection s "ch-tools-dejagnu") (ofSection s "ch-system-systemd"))

/-! ### Package management -/

def managed (s : Sect2) : Bool := inFinalChapter s.ancestors && installCommands s ≠ []

def wrapOpen : Text := textLines ["wrapInstall '"]

def mkdirs : Text :=
  textLines
    ["mkdir -pv $PKG_DEST/\x7bboot,etc\x7d",
      "mkdir -pv $PKG_DEST/usr/\x7bbin,include,lib/pkgconfig,sbin\x7d",
      "mkdir -pv $PKG_DEST/usr/share/\x7bdoc,info,bash-completion/completions\x7d",
      "mkdir -pv $PKG_DEST/usr/share/man/man\x7b1..8\x7d",
      "case $(uname -m) in",
      " x86_64) mkdir -v $PKG_DEST/lib64 ;;",
      "esac",
      "ln -sv usr/sbin $PKG_DEST",
      "ln -sv usr/bin  $PKG_DEST",
      "ln -sv usr/lib  $PKG_DEST"]

def openInstall (p : Params) (s : Sect2) : Text :=
  if managed s && p.pkgmngt = yes then (if p.wrapInstall = yes then wrapOpen else mkdirs) else []

def rmLines (s : Sect2) (dest : String) : Text :=
  (if ofSection s "ch-system-man-pages" then
    textLines ["rm -fv " ++ dest ++ "/usr/share/man/\x7bman3/getspnam.3,man5/passwd.5\x7d"]
  else []) ++
  if ofSection s "ch-system-shadow" then
    textLines ["rm -fv " ++ dest ++ "/usr/share/man/man8/nologin.8",
      "rm -fv " ++ dest ++ "/sbin/nologin"]
  else []

def packLines : List String :=
  ["PREV_SEC=$\x7bSECONDS\x7d", "packInstall", "SECONDS=$\x7bPREV_SEC\x7d"]

def wrapClose : Text := textLines ("'" :: packLines)

def rmdirs : Text :=
  textLines
    (["for dir in $PKG_DEST/usr/share/man/man\x7b1..8\x7d \\",
      "           $PKG_DEST/usr/share/bash-completion\x7b/completions,\x7d \\",
      "           $PKG_DEST/usr/share/\x7bdoc,info,man,\x7d \\",
      "           $PKG_DEST/usr/lib/pkgconfig \\",
      "           $PKG_DEST/usr/\x7blib,bin,sbin,include\x7d \\",
      "           $PKG_DEST/\x7bboot,etc\x7d; do",
      "  [ -d \"$dir\" ] && [ -z \"$(ls $dir)\" ] && rmdir -v $dir",
      "done",
      "[ -d $PKG_DEST/lib64 ] && [ -z \"$(ls $PKG_DEST/lib64)\" ] &&",
      "  rmdir -v $PKG_DEST/lib64",
      "rm -v $PKG_DEST/\x7blib,bin,sbin\x7d",
      "",
      "rm -rf $PKG_DEST/var/\x7brun,lock\x7d",
      "",
      "[ -d $PKG_DEST/var ] && [ -z \"$(ls $PKG_DEST/var)\" ] && rmdir -v $PKG_DEST/var"] ++
    packLines ++ ["rm -rf $PKG_DEST"])

def closeInstall (p : Params) (s : Sect2) : Text :=
  if managed s then
    if p.pkgmngt = no then []
    else if p.wrapInstall = yes then rmLines s "" ++ wrapClose
    else rmLines s "$PKG_DEST" ++ rmdirs
  else []

/-! ### The parts of the output -/

inductive Part where
  | text (t : Text)
  | apply (c : Command)
  | applyScreen (sc : Located)
  | copy (u : Located)

/-- `//userinput[@remap = ...]` -/
def docUserinputs (s : Sect2) (r : String) : List Located :=
  (located [] s.doc).filter fun u => u.2.1.isElement "userinput" && remap u.2 = some r.toList

def localeScript (p : Params) : Text :=
  "if LOCALE=`grep \"".toList ++ (p.lang ++
    textLines ["/\" $PKGDIR/localedata/SUPPORTED`; then",
      "  CHARMAP=`echo $LOCALE | sed 's,[^/]*/\\([^ ]*\\) [\\],\\1,'`",
      "  INPUT=`echo $LOCALE | sed 's,[/.].*,,'`",
      "  LOCALE=`echo $LOCALE | sed 's,/.*,,'`",
      "  localedef -i $INPUT -f $CHARMAP $LOCALE",
      "fi"])

def isGlibcInstallation (s : Sect2) : Bool :=
  ofSection s "ch-system-glibc" && s.node.1.attr "role" = some "installation".toList

def glibcLocales (p : Params) (s : Sect2) : List Part :=
  if isGlibcInstallation s then
    if p.fullLocale = yes then
      (docUserinputs s "locale-full").flatMap fun u => [.copy u, .text ['\n']]
    else
      (docUserinputs s "locale-test").map .copy ++ (.text ['\n'] ::
        if contains (((docUserinputs s "locale-test").head?.map
              fun u => stringValue u.2.2).getD []) p.lang = false ∧
            p.lang ≠ "C".toList ∧ p.lang ≠ "POSIX".toList then [.text (localeScript p)]
        else [])
  else []

def ncursesScreens (p : Params) (s : Sect2) : List Part :=
  if ofSection s "ch-system-ncurses" && p.ncurses5 = yes then
    ((located (s.node :: s.ancestors) s.node.2).filter fun u =>
      u.2.1.isElement "screen" && u.2.1.attr "role" = some "nodump".toList).map .applyScreen
  else []

def sect2 (p : Params) (s : Sect2) : List Part :=
  (firstCommands s).map .apply ++ (.text (openInstall p s) ::
    ((installCommands s).map .apply ++ (.text (closeInstall p s) ::
      (glibcLocales p s ++ ((lastCommands s).map .apply ++ ncursesScreens p s)))))

def Part.render (p : Params) : Part → Text
  | .text t => t
  | .apply c => applyTo p c.1
  | .applyScreen sc => applyTo p sc
  | .copy u => stringValue u.2.2

def sect2Text (p : Params) (s : Sect2) : Text := (sect2 p s).flatMap (Part.render p)

/-! ### Which commands are written, and in which order -/

def isCommandRemap (r : Option Text) : Bool :=
  decide (r ∈ [none, some "pre".toList, some "configure".toList, some "make".toList,
    some "test".toList, some "install".toList, some "adjust".toList])

def commands (s : Sect2) : List Command := select s isCommandRemap

def lateTests (s : Sect2) : Bool :=
  ofSection s "ch-tools-dejagnu" || ofSection s "ch-system-systemd"

def groupOf (late : Bool) (r : Option Text) : ℕ :=
  if r = some "install".toList then 1
  else if r = none ∨ r = some "adjust".toList ∨ (r = some "test".toList ∧ late) then 2
  else 0

def group (s : Sect2) (c : Command) : ℕ := groupOf (lateTests s) (remapOf c)

def Before (s : Sect2) (c d : Command) : Prop :=
  group s c < group s d ∨ group s c = group s d ∧ c.2 < d.2

def Part.applied : Part → Option Command
  | .apply c => some c
  | _ => none

def applied (ps : List Part) : List Command := ps.filterMap Part.applied

theorem remap_group (dejagnu systemd : Bool) (r : Option Text) :
    firstRemap dejagnu systemd r =
        (isCommandRemap r && decide (groupOf (dejagnu || systemd) r = 0)) ∧
      installRemap r = (isCommandRemap r && decide (groupOf (dejagnu || systemd) r = 1)) ∧
      lastRemap dejagnu systemd r =
        (isCommandRemap r && decide (groupOf (dejagnu || systemd) r = 2)) := by
  by_cases hr : r ∈ [none, some "pre".toList, some "configure".toList, some "make".toList,
    some "test".toList, some "install".toList, some "adjust".toList]
  · simp only [List.mem_cons, List.not_mem_nil, or_false] at hr
    rcases hr with rfl | rfl | rfl | rfl | rfl | rfl | rfl <;> cases dejagnu <;> cases systemd <;>
      decide
  · have hno : isCommandRemap r = false := decide_eq_false hr
    simp only [List.mem_cons, List.not_mem_nil, or_false, not_or] at hr
    obtain ⟨h0, h1, h2, h3, h4, h5, h6⟩ := hr
    simp only [hno, Bool.false_and, firstRemap, installRemap, lastRemap, h0, h1, h2, h3, h4, h5,
      h6, decide_false, Bool.or_self, and_self]

theorem select_group (s : Sect2) {q : Option Text → Bool} {k : ℕ}
    (h : ∀ r, q r = (isCommandRemap r && decide (groupOf (lateTests s) r = k))) :
    select s q = (commands s).filter fun c => decide (group s c = k) := by
  unfold commands select
  rw [List.filter_filter]
  refine List.filter_congr fun c _ => ?_
  rw [h, group, Bool.and_comm (decide _), Bool.and_assoc]

theorem selections_eq (s : Sect2) :
    firstCommands s ++ (installCommands s ++ lastCommands s) =
      inGroups (group s) [0, 1, 2] (commands s) := by
  have hremap := remap_group (ofSection s "ch-tools-dejagnu") (ofSection s "ch-system-systemd")
  have h0 : firstCommands s = _ := select_group s fun r => (hremap r).1
  have h1 : installCommands s = _ := select_group s fun r => (hremap r).2.1
  have h2 : lastCommands s = _ := select_group s fun r => (hremap r).2.2
  rw [h0, h1, h2, inGroups, List.flatMap_cons, List.flatMap_cons, List.flatMap_singleton]

theorem applied_append (ps qs : List Part) : applied (ps ++ qs) = applied ps ++ applied qs :=
  List.filterMap_append

theorem applied_map_apply (cs : List Command) : applied (cs.map .apply) = cs := by
  unfold applied
  rw [List.filterMap_map]
  exact List.filterMap_some

theorem applied_eq_nil {ps : List Part} (h : ∀ part ∈ ps, part.applied = none) : applied ps = [] :=
  List.filterMap_eq_nil_iff.mpr h

theorem mem_glibcLocales {p : Params} {s : Sect2} {part : Part} (h : part ∈ glibcLocales p s) :
    (∃ t, part = .text t) ∨
      ∃ u, part = .copy u ∧ isGlibcInstallation s ∧
        u ∈ docUserinputs s (if p.fullLocale = yes then "locale-full" else "locale-test") := by
  unfold glibcLocales at h
  by_cases hg : isGlibcInstallation s
  · rw [if_pos hg] at h
    by_cases hf : p.fullLocale = yes
    · rw [if_pos hf] at h ⊢
      obtain ⟨u, hu, hpart⟩ := List.mem_flatMap.mp h
      rcases List.mem_pair.mp hpart with rfl | rfl
      · exact .inr ⟨u, rfl, hg, hu⟩
      · exact .inl ⟨_, rfl⟩
    · rw [if_neg hf] at h ⊢
      rcases List.mem_append.mp h with h | h
      · obtain ⟨u, hu, rfl⟩ := List.mem_map.mp h
        exact .inr ⟨u, rfl, hg, hu⟩
      · rcases List.mem_cons.mp h with rfl | h
        · exact .inl ⟨_, rfl⟩
        · split_ifs at h
          · exact .inl ⟨_, List.mem_singleton.mp h⟩
          · cases h
  · rw [if_neg hg] at h
    cases h

theorem mem_ncursesScreens {p : Params} {s : Sect2} {part : Part} (h : part ∈ ncursesScreens p s) :
    ofSection s "ch-system-ncurses" ∧ p.ncurses5 = yes ∧ ∃ sc, part = .applyScreen sc := by
  unfold ncursesScreens at h
  split_ifs at h with hn
  · obtain ⟨sc, -, rfl⟩ := List.mem_map.mp h
    simp only [Bool.and_eq_true, decide_eq_true_eq] at hn
    exact ⟨hn.1, hn.2, sc, rfl⟩
  · cases h

theorem applied_sect2 (p : Params) (s : Sect2) :
    applied (sect2 p s) = firstCommands s ++ (installCommands s ++ lastCommands s) := by
  have hglibc : applied (glibcLocales p s) = [] := by
    refine applied_eq_nil fun part hpart => ?_
    rcases mem_glibcLocales hpart with ⟨t, rfl⟩ | ⟨u, rfl, -⟩ <;> rfl
  have hncurses : applied (ncursesScreens p s) = [] := by
    refine applied_eq_nil fun part hpart => ?_
    obtain ⟨-, -, sc, rfl⟩ := mem_ncursesScreens hpart
    rfl
  have htext : ∀ (t : Text) (ps : List Part), applied (.text t :: ps) = applied ps :=
    fun t ps => rfl
  unfold sect2
  simp only [applied_append, applied_map_apply, htext, hglibc, hncurses, List.nil_append,
    List.append_nil]

/-- Each command of the section is written once, group after group, and in document
order in each group. -/
structure InOrder (p : Params) (s : Sect2) : Prop where
  once : (applied (sect2 p s)).Perm (commands s)
  ordered : (applied (sect2 p s)).Pairwise (Before s)

theorem inOrder (p : Params) (s : Sect2) : InOrder p s := by
  have hperm : (inGroups (group s) [0, 1, 2] (commands s)).Perm (commands s) := by
    refine inGroups_perm (by decide) fun c _ => ?_
    unfold group groupOf
    split_ifs <;> decide
  have hnumbers : (commands s).Pairwise fun c d => c.2 < d.2 := by
    have hlt := List.pairwise_lt_range' (s := 0)
      (n := (located (s.node :: s.ancestors) s.node.2).length) 1 (by omega)
    rw [← List.zipIdx_map_snd, List.pairwise_map] at hlt
    exact (hlt.filter _).filter _
  constructor
  · rw [applied_sect2, selections_eq]
    exact hperm
  · rw [applied_sect2, selections_eq]
    exact inGroups_pairwise (by decide) hnumbers

/-! ### Screens that are not dumped -/

def Part.userinputs : Part → List Located
  | .text _ => []
  | .apply c => [c.1]
  | .applyScreen sc =>
    (located (sc.2 :: sc.1) sc.2.2).filter fun u => u.2.1.isElement "userinput"
  | .copy u => [u]

def inNodump (u : Located) : Bool :=
  (parent u).any fun sc => sc.1.isElement "screen" && !isDumped sc

/-- Of the commands in screens that are not dumped, only those of ncurses are written. -/
def OnlyNcurses (p : Params) (s : Sect2) : Prop :=
  ∀ part ∈ sect2 p s, ∀ u ∈ part.userinputs, inNodump u →
    ofSection s "ch-system-ncurses" ∧ p.ncurses5 = yes

/-- The locales of glibc, which its installation copies from the whole book. -/
def CopiedLocale (p : Params) (s : Sect2) (part : Part) : Prop :=
  ∃ u, part = .copy u ∧ isGlibcInstallation s ∧
    u ∈ docUserinputs s (if p.fullLocale = yes then "locale-full" else "locale-test")

theorem dumped_of_select {s : Sect2} {q : Option Text → Bool} {c : Command} (h : c ∈ select s q) :
    inNodump c.1 = false := by
  have hd := (List.mem_filter.mp h).2
  rw [Bool.and_eq_true] at hd
  unfold inNodump
  cases hp : parent c.1 with
  | none => rfl
  | some sc =>
    have hdump : isDumped sc = true := by
      have hd' := hd.1
      unfold dumped at hd'
      rw [hp] at hd'
      exact hd'
    simp [hdump]

/-- For every section: each command is written once, group after group; and of those in
screens that are not dumped only the ones of ncurses and the copied locales of glibc. -/
theorem sect2_commands (p : Params) (s : Sect2) :
    InOrder p s ∧
      ∀ part ∈ sect2 p s, ∀ u ∈ part.userinputs, inNodump u →
        (ofSection s "ch-system-ncurses" ∧ p.ncurses5 = yes) ∨ CopiedLocale p s part := by
  refine ⟨inOrder p s, fun part hpart u hu hnodump => ?_⟩
  have happly : ∀ {q : Option Text → Bool}, part ∉ (select s q).map Part.apply := by
    intro q hmem
    obtain ⟨c, hc, rfl⟩ := List.mem_map.mp hmem
    rw [List.mem_singleton.mp hu, dumped_of_select hc] at hnodump
    cases hnodump
  have htext : ∀ t, part ≠ .text t := by
    rintro t rfl
    cases hu
  simp only [sect2, List.mem_append, List.mem_cons] at hpart
  rcases hpart with h | h | h | h | h | h | h
  · exact absurd h happly
  · exact absurd h (htext _)
  · exact absurd h happly
  · exact absurd h (htext _)
  · rcases mem_glibcLocales h with ⟨t, ht⟩ | hcopy
    · exact absurd ht (htext t)
    · exact .inr hcopy
  · exact absurd h happly
  · obtain ⟨hn, h5, -⟩ := mem_ncursesScreens h
    exact .inl ⟨hn, h5⟩

/-! ### The locales of glibc -/

def userinputNode (r s : String) (rest : Xml) : Xml :=
  .node (.element "userinput" [("remap", r.toList)]) (.node (.text s.toList) .nil .nil) rest

/-- The installation of glibc, with the locales in a screen that is not dumped. -/
def glibcBody : Xml :=
  .node (.element "screen" []) (userinputNode "install" "make install" .nil)
    (.node (.element "screen" [("role", "nodump".toList)])
      (userinputNode "locale-test" "localedef -i POSIX -f UTF-8 C.UTF-8" .nil) .nil)

def glibcSect2 : Sect2 where
  doc := .node (.element "sect1" [("id", "ch-system-glibc".toList)])
    (.node (.element "sect2" [("role", "installation".toList)]) glibcBody .nil) .nil
  ancestors := [(.element "sect1" [("id", "ch-system-glibc".toList)],
    .node (.element "sect2" [("role", "installation".toList)]) glibcBody .nil)]
  node := (.element "sect2" [("role", "installation".toList)], glibcBody)

/-- The locales are written although their screen is not dumped. -/
theorem not_onlyNcurses_glibc : ¬ OnlyNcurses {} glibcSect2 := by
  intro h
  have hnodump : (docUserinputs glibcSect2 "locale-test").any inNodump = true := by decide +kernel
  obtain ⟨u, hu, hn⟩ := List.any_eq_true.mp hnodump
  have hcopy : Part.copy u ∈ glibcLocales {} glibcSect2 := by
    have hglibc : isGlibcInstallation glibcSect2 = true := by decide +kernel
    have hfull : ({} : Params).fullLocale ≠ yes := by decide
    unfold glibcLocales
    rw [if_pos hglibc, if_neg hfull]
    exact List.mem_append_left _ (List.mem_map_of_mem hu)
  have hpart : Part.copy u ∈ sect2 {} glibcSect2 := by
    simp only [sect2, List.mem_append, List.mem_cons]
    exact .inr (.inr (.inr (.inr (.inl hcopy))))
  have hsection := (h _ hpart u List.mem_cons_self hn).1
  revert hsection
  decide +kernel

end HaoosLfs.Book
