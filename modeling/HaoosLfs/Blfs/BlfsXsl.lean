import HaoosLfs.Book.LfsXsl

/-!
# The stylesheet of the BLFS book (`blfs.xsl`)

For each section with commands, of each chapter that is not excluded, the
stylesheet writes a script and, into `cmd.txt`, a configuration entry that depends
on the sections which its required paragraphs refer to.
-/

namespace HaoosLfs.Blfs
open Book Text

/-! ### Books -/

def nameStart (c : Char) : Bool := c.isAlpha || c = '_'

def nameChar (c : Char) : Bool := c.isAlphanum || c = '_' || c = '-' || c = '.'

/-- An XML name in ASCII. -/
def isName : Text → Bool
  | [] => false
  | c :: s => nameStart c && s.all nameChar

/-- A book, whose identifiers and references are names. -/
structure BlfsBook where
  doc : Xml
  ids : doc.preorder.all fun n => (n.attr "id").all isName
  linkends : doc.preorder.all fun n => (n.attr "linkend").all isName

/-! ### Entries -/

/-- What `blfs.xsl` reads of a section that gets an entry. -/
structure Entry where
  dirname : Text
  chapNum : ℕ
  position : ℕ
  filename : Text
  body : Xml
  deriving DecidableEq

def excludedIds : List Text :=
  ["welcome".toList, "important".toList, "postlfs-config".toList]

/-- `.//screen/userinput` -/
def hasUserinput (body : Xml) : Bool :=
  (descendant "screen" body).any fun sc => !(child "userinput" sc.2).isEmpty

def sectionEntry (dirname : Text) (chapNum : ℕ) (s : Node × ℕ) : Option Entry :=
  match s.1.1.attr "id" with
  | some filename =>
    if hasUserinput s.1.2 then some ⟨dirname, chapNum, s.2, filename, s.1.2⟩ else none
  | none => none

/-- Sections are numbered in their chapter, chapters in the book. -/
def sections (chapter : Node) : List (Node × ℕ) := (child "sect1" chapter.2).zipIdx 1

/-- The `@id` of a chapter that is not excluded. -/
def keptId (chapter : Node) : Option Text :=
  (chapter.1.attr "id").filter fun i => decide (i ∉ excludedIds)

def chapterEntries (c : Node × ℕ) : List Entry :=
  match keptId c.1 with
  | some dirname => (sections c.1).filterMap (sectionEntry dirname c.2)
  | none => []

def entries (book : BlfsBook) : List Entry :=
  ((descendant "chapter" book.doc).zipIdx 1).flatMap chapterEntries

/-! ### References -/

def hasRole (role : String) (n : Node) : Bool := n.1.attr "role" = some role.toList

/-- `not(@role)` -/
def noRole (n : Node) : Bool := (n.1.attr "role").isNone

def requiredParas (body : Xml) : List Node := (descendant "para" body).filter (hasRole "required")

/-- The value of `@linkend`, which is empty when there is none. -/
def linkend (xref : Node) : Text := (xref.1.attr "linkend").getD []

/-- The references that the template of `para` writes: of the children only. -/
def dependencies (body : Xml) : List Text :=
  (requiredParas body).flatMap fun p => ((child "xref" p.2).filter noRole).map linkend

def requiredLinkends (body : Xml) : List Text :=
  (requiredParas body).flatMap fun p =>
    ((descendant "xref" p.2).filter noRole).filterMap fun xref => xref.1.attr "linkend"

/-! ### What is written -/

inductive Line where
  | blank
  | mainMenu
  | mainEndmenu
  | menu (chapter : Text)
  | endmenu
  | config (name : Text)
  | bool (name : Text)
  | dependsOn (name : Text)
  | defaultY
  deriving DecidableEq

/-- A line of `cmd.txt`, without its newline. -/
def Line.text : Line → Text
  | .blank => []
  | .mainMenu => "menu \"BLFS configuration\"".toList
  | .mainEndmenu => "endmenu".toList
  | .menu chapter => "\tmenu \t\"chapter-".toList ++ chapter ++ "\"".toList
  | .endmenu => "\tendmenu".toList
  | .config name => "\tconfig ".toList ++ name
  | .bool name => "\t\tbool \"".toList ++ name ++ "\"".toList
  | .dependsOn name => "\t\tdepends on ".toList ++ name
  | .defaultY => "\t\tdefault y".toList

def entryLines (e : Entry) : List Line :=
  [.config e.filename, .bool e.filename] ++ (dependencies e.body).map .dependsOn ++ [.defaultY]

def sectionLines (dirname : Text) (chapNum : ℕ) (s : Node × ℕ) : List Line :=
  .blank :: ((sectionEntry dirname chapNum s).map entryLines).getD []

def chapterLines (c : Node × ℕ) : List Line :=
  match keptId c.1 with
  | some dirname =>
    [.blank, .menu dirname] ++ (sections c.1).flatMap (sectionLines dirname c.2) ++
      [.blank, .endmenu, .blank]
  | none => []

def cmdLines (book : BlfsBook) : List Line :=
  .mainMenu :: ((descendant "chapter" book.doc).zipIdx 1).flatMap chapterLines ++ [.mainEndmenu]

def cmdTxt (book : BlfsBook) : Text := (cmdLines book).flatMap fun l => l.text ++ ['\n']

/-- The script of an entry, below `/mnt/build_dir/jhalfs/blfs-commands/`. -/
def Entry.order (e : Entry) : Text := decimal e.chapNum ++ '-' :: decimal e.position

def Entry.script (e : Entry) : Script := ⟨e.dirname, e.order ++ '-' :: e.filename⟩

def blfsScripts (book : BlfsBook) : List Script := (entries book).map Entry.script

theorem script_file (e : Entry) : e.script.file =
    decimal e.chapNum ++ '-' :: (decimal e.position ++ '-' :: e.filename) := by
  simp [Entry.script, Entry.order]

/-! ### Names in entries -/

theorem isName_nameChar {s : Text} (h : isName s) : ∀ c ∈ s, nameChar c := by
  cases s with
  | nil => cases h
  | cons c s =>
    simp only [isName, Bool.and_eq_true, List.all_eq_true] at h
    intro d hd
    rcases List.mem_cons.mp hd with rfl | hd
    · have h1 := h.1
      simp only [nameStart, Bool.or_eq_true, decide_eq_true_eq] at h1
      simp only [nameChar, Char.isAlphanum, Bool.or_eq_true, decide_eq_true_eq]
      tauto
    · exact h.2 d hd

/-! ### Books of one chapter -/

def commandsOf (rest : Xml) : Xml :=
  .node (.element "screen" [])
    (.node (.element "userinput" []) (.node (.text "make install".toList) .nil .nil) .nil) rest

def requiredPara (links : List String) (rest : Xml) : Xml :=
  .node (.element "para" [("role", "required".toList)])
    (links.foldr (fun l xs => .node (.element "xref" [("linkend", l.toList)]) .nil xs) .nil) rest

def chapterDoc (sections : List (String × List String)) : Xml :=
  .node (.element "book" [])
    (.node (.element "chapter" [("id", "general".toList)])
      (sections.foldr (fun s xs => .node (.element "sect1" [("id", s.1.toList)])
        (requiredPara s.2 (commandsOf .nil)) xs) .nil) .nil) .nil

def chapterBook (sections : List (String × List String))
    (hi : (chapterDoc sections).preorder.all fun n => (n.attr "id").all isName)
    (hl : (chapterDoc sections).preorder.all fun n => (n.attr "linkend").all isName) : BlfsBook :=
  ⟨chapterDoc sections, hi, hl⟩

end HaoosLfs.Blfs
