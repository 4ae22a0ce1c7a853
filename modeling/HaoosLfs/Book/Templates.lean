import HaoosLfs.Book.LfsXsl
import HaoosLfs.Lib.Rewrite

/-!
# The texts that `lfs.xsl` writes (`lfs.xsl:9-77`, `576-665`, `665-905`, `1024-1160`)

The parameters of the stylesheet, and the templates that write a text: what the book
gives as example values is replaced by the parameters, and some lines are commented out.
-/

namespace HaoosLfs.Book
open Text

structure Params where
  pkgmngt : Text := "n".toList
  wrapInstall : Text := "n".toList
  testsuite : Text := "1".toList
  ncurses5 : Text := "n".toList
  strip : Text := "n".toList
  delLaFiles : Text := "y".toList
  timezone : Text := "GMT".toList
  page : Text := "letter".toList
  lang : Text := "C".toList
  fullLocale : Text := "n".toList
  hostname : Text := "HOSTNAME".toList
  interface : Text := "eth0".toList
  ip : Text := "10.0.2.9".toList
  gateway : Text := "10.0.2.2".toList
  netPrefix : Text := "24".toList
  broadcast : Text := "10.0.2.255".toList
  domain : Text := "lfs.org".toList
  nameserver1 : Text := "10.0.2.3".toList
  nameserver2 : Text := "8.8.8.8".toList
  font : Text := "lat0-16".toList
  keymap : Text := "us".toList
  localClock : Text := "n".toList
  logLevel : Text := "4".toList

def yes : Text := ['y']
def no : Text := ['n']

theorem yes_ne_no : yes ≠ no := by decide

def textLines (ls : List String) : Text := ls.flatMap fun l => l.toList ++ ['\n']

/-! ### The place of a node -/

/-- A node and its ancestors, the nearest first. -/
abbrev Located := List Node × Node

/-- All nodes of a forest below these ancestors, in document order. -/
def located (anc : List Node) : Xml → List Located
  | .nil => []
  | .node i cs ss => (anc, (i, cs)) :: (located ((i, cs) :: anc) cs ++ located anc ss)

/-- `ancestor::name[@id = ...]` -/
def hasAncestor (anc : List Node) (name : String) (ids : List Text) : Bool :=
  anc.any fun n => n.1.isElement name && (n.1.attr "id").any fun i => decide (i ∈ ids)

def inSect1 (anc : List Node) (id : String) : Bool := hasAncestor anc "sect1" [id.toList]

theorem suffix_of_located {anc : List Node} {f : Xml} {u : Located} (h : u ∈ located anc f) :
    anc <:+ u.1 := by
  induction f generalizing anc with
  | nil => cases h
  | node i cs ss ihc ihs =>
    rw [located, List.mem_cons, List.mem_append] at h
    rcases h with rfl | h | h
    · exact List.suffix_refl anc
    · exact (List.suffix_cons _ anc).trans (ihc h)
    · exact ihs h

theorem hasAncestor_suffix {anc anc' : List Node} (h : anc <:+ anc') {name : String}
    {ids : List Text} (ha : hasAncestor anc name ids) : hasAncestor anc' name ids := by
  obtain ⟨front, rfl⟩ := h
  unfold hasAncestor at ha ⊢
  rw [List.any_append, ha, Bool.or_true]

/-! ### Example values -/

def outputnet (p : Params) : Text → Text :=
  rewrite
    [⟨"eth0".toList, always, p.interface⟩,
      ⟨"192.168.1.1".toList, always, p.gateway⟩,
      ⟨"192.168.1.255".toList, always, p.broadcast⟩,
      ⟨"192.168.1.2".toList, always, p.ip⟩,
      ⟨"24".toList, always, p.netPrefix⟩] id

/-- The address of the gateway and of the name server. -/
def addr : Text := "192.168.0.1".toList
def gatewayWord : Text := "Gateway".toList

def sysdnetRules (p : Params) : List RewriteRule :=
  [⟨"<network-device-name>".toList, always, p.interface⟩,
    ⟨addr, fun s => contains s gatewayWord, p.gateway⟩,
    ⟨addr, fun s => !contains s gatewayWord, p.nameserver1 ++ "\nDNS=".toList ++ p.nameserver2⟩,
    ⟨"192.168.0.2".toList, always, p.ip⟩,
    ⟨"24".toList, always, p.netPrefix⟩,
    ⟨"<Your Domain Name>".toList, always, p.domain⟩]

def outputsysdnet (p : Params) : Text → Text := rewrite (sysdnetRules p) id

def outputsysvconsole (p : Params) : Text → Text :=
  rewrite
    [⟨"bg_bds-utf8".toList, always, p.keymap⟩,
      ⟨"LatArCyrHeb-16".toList, always, p.font ++ "\"\nLOGLEVEL=\"".toList ++ p.logLevel⟩] id

def outputsysdconsole (p : Params) : Text → Text :=
  rewrite
    [⟨"de-latin1".toList, always, p.keymap⟩, ⟨"Lat2-Terminus16".toList, always, p.font⟩] id

/-- `inner` is what the templates write for the children. -/
def literal (p : Params) (s inner : Text) : Text :=
  if contains s "ONBOOT".toList then outputnet p s
  else if contains s "[Match]".toList then outputsysdnet p s
  else if contains s "0.0 0 0.0".toList then
    substringBefore s "LOCAL".toList ++ ((if p.localClock = yes then "LOCAL".toList else []) ++
      if p.localClock = no then "UTC".toList else [])
  else if contains s "UTC=1".toList then
    substringBefore s ['1'] ++ ((if p.localClock = yes then ['0'] else []) ++
      ((if p.localClock = no then ['1'] else []) ++ substringAfter s ['1']))
  else if contains s "bg_bds-".toList then outputsysvconsole p s
  else if contains s "de-latin1".toList then outputsysdconsole p s
  else inner

def replaceable (p : Params) (anc : List Node) (s inner : Text) : Text :=
  if inSect1 anc "ch-system-glibc" then p.timezone
  else if inSect1 anc "ch-system-groff" then p.page
  else if contains s "<ll>_<CC>".toList then p.lang
  else if contains s "Domain".toList then p.domain
  else if contains s "primary".toList then p.nameserver1
  else if contains s "secondary".toList then p.nameserver2
  else if contains s "192.168.1.1".toList then p.ip
  else if contains s "192.168.0.2".toList then p.ip
  else if contains s "eth0".toList then p.interface
  else if contains s "HOSTNAME".toList then p.hostname
  else if contains s "FQDN".toList then p.hostname ++ '.' :: p.domain
  else if contains s "alias".toList then []
  else if contains s "<lfs>".toList then p.hostname
  else "**EDITME".toList ++ (inner ++ "EDITME**".toList)

/-! ### Quoting and commenting out -/

def apos : Char := '\''

def outputWrap : Text → Text := rewrite [⟨[apos], always, "'\\''".toList⟩] id

def stripLine (p : Params) (s : Text) : Text :=
  if contains s "\\*.la".toList then
    (if p.delLaFiles = no then "# ".toList else []) ++ (s ++ ['\n'])
  else if contains s "strip ".toList then
    (if p.strip = no then "# ".toList else []) ++ (s ++ " || true\n".toList)
  else s ++ ['\n']

def commentStrip (p : Params) : Text → Text := rewrite [⟨['\n'], always, []⟩] (stripLine p)

/-- The sections whose tests are not skipped with `testsuite` 1. -/
def criticalSections : List Text :=
  ["ch-system-gcc".toList, "ch-system-glibc".toList, "ch-system-gmp".toList,
    "ch-system-mpfr".toList, "ch-system-binutils".toList]

def testLog (eofSeen : Bool) : Text :=
  (if eofSeen then [] else " >> $TEST_LOG 2>&1 || true".toList) ++ ['\n']

/-- A line of a test; `whole` is the text of the `userinput`. -/
def testLine (p : Params) (anc : List Node) (whole s : Text) (eofSeen : Bool) : Text :=
  (if p.testsuite = ['0'] ∨
      p.testsuite = ['1'] ∧ hasAncestor anc "sect1" criticalSections = false then
    "# ".toList else []) ++
  if contains whole "make -k".toList then s ++ testLog eofSeen
  else if contains s "make".toList then
    substringBefore s "make".toList ++ ("make -k".toList ++
      (substringAfter s "make".toList ++ testLog eofSeen))
  else s ++ testLog (contains s ">>".toList || eofSeen || decide (s.getLast? = some '\\'))

def commentTestFuel (p : Params) (anc : List Node) (whole : Text) : ℕ → Text → Bool → Text
  | 0, s, eofSeen => testLine p anc whole s eofSeen
  | n + 1, s, eofSeen =>
    if contains s ['\n'] then
      commentTestFuel p anc whole n (substringBefore s ['\n']) eofSeen ++
        commentTestFuel p anc whole n (substringAfter s ['\n'])
          (if contains (substringBefore s ['\n']) "EOF".toList then !eofSeen else eofSeen)
    else testLine p anc whole s eofSeen

def commentTest (p : Params) (anc : List Node) (s : Text) : Text :=
  commentTestFuel p anc s s.length s false

end HaoosLfs.Book
