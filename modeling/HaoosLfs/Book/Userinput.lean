import HaoosLfs.Book.Templates

/-!
# The template `userinput` (`lfs.xsl:411-574`, `907-1022`)

A command of the book is written as it is, rewritten to install below `$PKG_DEST`, or
quoted for `wrapInstall`; what is inserted for `$PKG_DEST` is kept apart from the text.
-/

namespace HaoosLfs.Book
open Text

/-- A piece of output: a text, or what stands in it only to install below `$PKG_DEST`. -/
inductive Out where
  | text (t : Text)
  | inserted (t : Text)
  deriving DecidableEq

def Out.render : Out → Text
  | .text t => t
  | .inserted t => t

def Out.erase : Out → Text
  | .text t => t
  | .inserted _ => []

def render (ps : List Out) : Text := ps.flatMap Out.render

def erase (ps : List Out) : Text := ps.flatMap Out.erase

theorem erase_append (ps qs : List Out) : erase (ps ++ qs) = erase ps ++ erase qs :=
  List.flatMap_append

/-! ### outputpkgdest -/

def destdir : Text := "DESTDIR=$PKG_DEST".toList
def pkgDest : Text := "$PKG_DEST".toList

/-- What the sections without `DESTDIR` write for their first `make`; `whole` is the
text of the `userinput`. -/
def specialMake (anc : List Node) (whole s : Text) : Option Text :=
  let args := substringBefore (substringAfter whole "make".toList) "install".toList
  if inSect1 anc "ch-system-glibc" then
    some ("make install_root=$PKG_DEST -j1".toList ++ (args ++ "install\n".toList))
  else if inSect1 anc "ch-system-bzip2" then
    some "make -j1 PREFIX=$PKG_DEST/usr install\n".toList
  else if inSect1 anc "ch-system-sysklogd" then
    some "make -j1 BINDIR=$PKG_DEST/sbin prefix=$PKG_DEST install\n".toList
  else if inSect1 anc "ch-system-iproute2" && contains s "DOCDIR".toList then
    some ("make -j1 DESTDIR=$PKG_DEST DOCDIR=".toList ++
      (substringBefore (substringAfter whole "DOCDIR=".toList) "install".toList ++
        "install\n".toList))
  else if inSect1 anc "ch-system-sysvinit" then
    some ("make -j1 ROOT=$PKG_DEST".toList ++ (args ++ "install\n".toList))
  else if inSect1 anc "ch-bootable-kernel" then
    some ("make -j1 INSTALL_MOD_PATH=$PKG_DEST".toList ++ (args ++ "install\n".toList))
  else none

section
/- The calls of the template for other texts. -/
variable (call : Text → List Out)

/-- The text up to the first `make`, or the `make` that it starts with. -/
def pkgdestMake (anc : List Node) (whole s : Text) : List Out :=
  if !"make".toList.isPrefixOf s then
    call (substringBefore s "make".toList) ++
      call (substringAfter s (substringBefore s "make".toList))
  else
    match specialMake anc whole s with
    | some t => [.text t]
    | none =>
      [.text "make -j1".toList, .inserted (' ' :: destdir)] ++
        call (substringAfter s "make".toList)

def pkgdestNinja (s : Text) : List Out :=
  if !"ninja install".toList.isPrefixOf s then
    call (substringBefore s "ninja install".toList) ++
      call (substringAfter s (substringBefore s "ninja install".toList))
  else
    [.inserted (destdir ++ [' ']), .text "ninja".toList] ++
      call (substringAfter s "ninja".toList)

/-- No `make` and no `ninja`: a redirection or an argument that is an absolute path. -/
def pkgdestPath (s : Text) : List Out :=
  if contains s ">/".toList && !contains (substringBefore s ">/".toList) " /".toList then
    [.text (substringBefore s ">/".toList), .text ['>'], .inserted pkgDest, .text ['/']] ++
      call (substringAfter s ">/".toList)
  else if contains s " /".toList then
    [.text (substringBefore s " /".toList), .text [' '], .inserted pkgDest, .text ['/']] ++
      call (substringAfter s " /".toList)
  else [.text s]

end

def outputpkgdestFuel (anc : List Node) (whole : Text) : ℕ → Text → List Out
  | 0, s => [.text s]
  | n + 1, s =>
    if contains s "make ".toList then pkgdestMake (outputpkgdestFuel anc whole n) anc whole s
    else if contains s "ninja install".toList then pkgdestNinja (outputpkgdestFuel anc whole n) s
    else pkgdestPath (outputpkgdestFuel anc whole n) s

def outputpkgdest (anc : List Node) (whole s : Text) : List Out :=
  outputpkgdestFuel anc whole s.length s

/-! ### userinput -/

def remap (u : Node) : Option Text := u.1.attr "remap"

def finalChapters : List Text :=
  ["chapter-building-system".toList, "chapter-config".toList, "chapter-bootscripts".toList,
    "chapter-bootable".toList]

def tempChapters : List Text :=
  ["chapter-temporary-tools".toList, "chapter-chroot-temporary-tools".toList,
    "chapter-cross-tools".toList]

def inFinalChapter (anc : List Node) : Bool := hasAncestor anc "chapter" finalChapters

def textItem : Item → Option Text
  | .text s => some s
  | _ => none

theorem textItem_eq_some {i : Item} {s : Text} (h : textItem i = some s) : i = .text s := by
  cases i with
  | text t => rw [Option.some.inj h]
  | element name attrs => cases h
  | pi target data => cases h
  | comment t => cases h

/-- `text()[n]`, as a string -/
def textChild (n : ℕ) (f : Xml) : Text :=
  ((f.trees.filterMap fun t => textItem t.1)[n - 1]?).getD []

/-- `-j1` after the first `make `. -/
def makeJ1 (s : Text) : Text :=
  substringBefore s "make ".toList ++ ("make -j1 ".toList ++ substringAfter s "make ".toList)

/-- An install command of the final chapters: `inner` is what the templates write for
the children, `literals` for those that are literals. -/
def installCommand (p : Params) (anc : List Node) (u : Node) (inner literals : Text) : List Out :=
  let s := stringValue u.2
  if p.pkgmngt = no then
    if contains s "firmware,udev".toList then
      [.text ("if [[ ! -d /lib/udev/devices ]] ; then\n".toList ++ (inner ++ "\nfi\n".toList))]
    else if contains s "make ".toList then [.text (makeJ1 s ++ ['\n'])]
    else [.text (inner ++ ['\n'])]
  else if p.wrapInstall = yes then
    if child "literal" u.2 ≠ [] then
      [.text (outputWrap (textChild 1 u.2) ++
        (literals ++ (outputWrap (textChild 2 u.2) ++ ['\n'])))]
    else [.text (outputWrap s ++ ['\n'])]
  else
    if child "literal" u.2 ≠ [] then
      outputpkgdest anc s (textChild 1 u.2) ++
        (.text literals :: (outputpkgdest anc s (textChild 2 u.2) ++ [.text ['\n']]))
    else outputpkgdest anc s s ++ [.text ['\n']]

def tzdataCommand (p : Params) (s : Text) : Text :=
  textLines ["", "OLD_PKG_DEST=\"$PKG_DEST\"", "OLD_PKGDIR=$PKGDIR",
    "PKG_DEST=$(dirname $OLD_PKG_DEST)/001-tzdata"] ++
  ("PKGDIR=$(dirname $PKGDIR)/tzdata-".toList ++
  (substringBefore (substringAfter s "tzdata".toList) ".tar".toList ++ ('\n' ::
  (substringBefore s "ZONEINFO=".toList ++
  ((if p.wrapInstall = no then
    "ZONEINFO=$PKG_DEST".toList ++ (substringAfter s "ZONEINFO=".toList ++
      textLines ["", "PREV_SEC=$\x7bSECONDS\x7d", "packInstall", "SECONDS=$\x7bPREV_SEC\x7d",
        "rm -rf $PKG_DEST"])
  else
    textLines ["", "wrapInstall '"] ++ ("ZONEINFO=".toList ++
      (substringAfter s "ZONEINFO=".toList ++
        textLines ["'", "PREV_SEC=$\x7bSECONDS\x7d", "packInstall",
          "SECONDS=$\x7bPREV_SEC\x7d"]))) ++
  textLines ["", "PKG_DEST=$OLD_PKG_DEST", "unset OLD_PKG_DEST", "PKGDIR=$OLD_PKGDIR",
    "unset OLD_PKGDIR"])))))

def mrproper (anc : List Node) : Text :=
  "make mrproper\n".toList ++
    if inSect1 anc "ch-bootable-kernel" then "cp -v ../kernel-config .config\n".toList else []

def hasStrip (s : Text) : Bool := contains s "strip ".toList || contains s "\\*.la".toList

def userinput (p : Params) (anc : List Node) (u : Node) (inner literals : Text) : List Out :=
  let s := stringValue u.2
  if s = "make mrproper".toList then [.text (mrproper anc)]
  else if remap u = some "test".toList then [.text (commentTest p anc s)]
  else if hasStrip s then [.text (commentStrip p s)]
  else if remap u = some "install".toList ∧ inFinalChapter anc then
    installCommand p anc u inner literals
  else if contains s "tzdata".toList ∧ p.pkgmngt = yes then [.text (tzdataCommand p s)]
  else if hasAncestor anc "chapter" tempChapters ∧ remap u = some "install".toList then
    if contains s "make ".toList then [.text (makeJ1 s ++ ['\n'])] else [.text (inner ++ ['\n'])]
  else [.text (inner ++ ['\n'])]

theorem userinput_install {p : Params} {anc : List Node} {u : Node} {inner literals : Text}
    (hremap : remap u = some "install".toList) (hfinal : inFinalChapter anc) :
    userinput p anc u inner literals =
      if stringValue u.2 = "make mrproper".toList then [.text (mrproper anc)]
      else if hasStrip (stringValue u.2) then [.text (commentStrip p (stringValue u.2))]
      else installCommand p anc u inner literals := by
  have htest : remap u ≠ some "test".toList := by
    rw [hremap]
    decide
  have hinstall : remap u = some "install".toList ∧ inFinalChapter anc = true := ⟨hremap, hfinal⟩
  unfold userinput
  dsimp only
  rw [if_neg htest, if_pos hinstall]

/-! ### apply-templates -/

def template (p : Params) (anc : List Node) (n : Node) (inner literals : Text) : Text :=
  match n.1 with
  | .text s => s
  | .element name _ =>
    if name = "userinput" then render (userinput p anc n inner literals)
    else if name = "replaceable" then replaceable p anc (stringValue n.2) inner
    else if name = "literal" then literal p (stringValue n.2) inner
    else inner
  | .pi _ _ => []
  | .comment _ => []

def applyTemplates (p : Params) : (Item → Bool) → List Node → Xml → Text
  | _, _, .nil => []
  | sel, anc, .node i cs ss =>
    (if sel i then
      template p anc (i, cs) (applyTemplates p (fun _ => true) ((i, cs) :: anc) cs)
        (applyTemplates p (Item.isElement "literal") ((i, cs) :: anc) cs)
    else []) ++ applyTemplates p sel anc ss

def applyTo (p : Params) (u : Located) : Text :=
  template p u.1 u.2 (applyTemplates p (fun _ => true) (u.2 :: u.1) u.2.2)
    (applyTemplates p (Item.isElement "literal") (u.2 :: u.1) u.2.2)

def commandOut (p : Params) (u : Located) : List Out :=
  userinput p u.1 u.2 (applyTemplates p (fun _ => true) (u.2 :: u.1) u.2.2)
    (applyTemplates p (Item.isElement "literal") (u.2 :: u.1) u.2.2)

theorem applyTo_userinput (p : Params) {u : Located} (h : u.2.1.isElement "userinput") :
    applyTo p u = render (commandOut p u) := by
  obtain ⟨attrs, hi⟩ := Item.isElement_iff.mp h
  unfold applyTo template
  rw [hi]
  rfl

end HaoosLfs.Book
