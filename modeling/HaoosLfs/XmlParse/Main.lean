import HaoosLfs.XmlParse.Walk

/-!
# The loop bodies of `xml.c` and `blfs-xml.c`

Both programs print while they walk: `-n cmd` extracts commands (`xml.c`) or
download links (`blfs-xml.c`), `-n pkg` the package list. A printed piece keeps
the node whose content it is.
-/

namespace HaoosLfs.XmlParse

/-- One `printf`; `text` is `none` where `printf("%s", s)` gets a null `char *`. -/
structure Print (ι : Type) where
  node : ι
  text : Option String
  newline : Bool
  deriving DecidableEq

variable {ι : Type} (d : Doc ι)

/-- `XML_GET_CONTENT` -/
def getContent (n : ι) : Option String :=
  if d.type n = .element then none else d.content n

def printed (newline : Bool) (n : ι) : Print ι := ⟨n, getContent d n, newline⟩

/-- `printf("%s\n", s)` is compiled to `puts(s)`, which reads `s`; `printf("%s", s)` takes a
null `char *` as well. -/
def printNode (newline : Bool) (n : ι) : Emit (Print ι) Unit :=
  if newline = true ∧ getContent d n = none then segv else emit [printed d newline n]

theorem printNode_of_isSome {n : ι} (h : (getContent d n).isSome) (newline : Bool) :
    printNode d newline n = emit [printed d newline n] := by
  refine if_neg fun hn => ?_
  rw [hn.2] at h
  cases h

def printContent (newline : Bool) (p : Option ι) : Emit (Print ι) Unit := do
  let n ← deref p
  printNode d newline n

/-- `v->properties && !xmlStrcmp(v->properties->children->content, s)` -/
def firstAttrIs (v : ι) (s : String) : Emit (Print ι) Bool :=
  match d.properties v with
  | none => pure false
  | some a => do
    let c ← deref (d.links.children a)
    pure (decide (d.content c = some s))

/-- `!xmlStrcmp(node->name, a) && !xmlStrcmp(node->parent->name, b)` -/
def isNamedUnder (node : ι) (a b : String) : Emit (Print ι) Bool :=
  if d.name node = a then do
    let p ← deref (d.links.parent node)
    pure (decide (d.name p = b))
  else pure false

/-! ### `xml.c`, mode `cmd` -/

/-- The filter of `xml.c:147-150`: neither a test nor a sysv command. -/
def keepCommand (node : ι) : Emit (Print ι) Bool := do
  if ← firstAttrIs d node "test" then pure false
  else
    let p ← deref (d.links.parent node)
    let sysv ← firstAttrIs d p "sysv"
    pure (!sysv)

def userinputRule (node : ι) : Emit (Print ι) Unit := do
  if ← isNamedUnder d node "userinput" "screen" then
    let c ← deref (d.links.children node)
    if d.name c = "text" then
      if ← keepCommand d node then printContent d true (d.links.children node)
      else pure ()
    else pure ()
  else pure ()

def literalRule (node : ι) : Emit (Print ι) Unit := do
  if ← isNamedUnder d node "literal" "userinput" then
    printContent d true (d.links.children node)
    match d.links.next node with
    | some n => printNode d true n
    | none => pure ()
  else pure ()

def cmdBody (node : ι) : Emit (Print ι) Unit := do
  userinputRule d node
  literalRule d node

/-! ### Mode `pkg`, the same text in both files -/

/-- Here the parent is followed before the node's own name is looked at. -/
def underRule (parent name : String) (newline : Bool) (node : ι) :
    Emit (Print ι) Unit := do
  let p ← deref (d.links.parent node)
  if d.name p = parent ∧ d.name node = name then printContent d newline (d.links.children node)
  else pure ()

def pkgLiteralRule (node : ι) : Emit (Print ι) Unit :=
  if d.name node = "literal" then printContent d true (d.links.children node) else pure ()

/-- `XML_GET_CONTENT(a->properties->children)` -/
def printUrl (p : Option ι) : Emit (Print ι) Unit := do
  let a ← deref p
  printContent d true (d.links.children a)

def pkgUlinkRule (node : ι) : Emit (Print ι) Unit :=
  if d.name node = "ulink" then printUrl d (d.properties node) else pure ()

def pkgBody (node : ι) : Emit (Print ι) Unit := do
  underRule d "varlistentry" "term" true node
  underRule d "listitem" "para" false node
  pkgLiteralRule d node
  pkgUlinkRule d node

/-! ### `blfs-xml.c`, mode `cmd` -/

def paraRule (node : ι) : Emit (Print ι) Unit := do
  if ← isNamedUnder d node "para" "listitem" then
    printContent d true (d.links.children node)
    let c ← deref (d.links.children node)
    match d.links.next c with
    | some n => if d.name n = "ulink" then printUrl d (d.properties n) else pure ()
    | none => pure ()
  else pure ()

/-! ### The programs -/

/-- `strcmp(name, "cmd")` and `strcmp(name, "pkg")`, tested one after the other. -/
def modeBody (cmd : ι → Emit (Print ι) Unit) (name : String) (node : ι) :
    Emit (Print ι) Unit := do
  if name = "cmd" then cmd node else pure ()
  if name = "pkg" then pkgBody d node else pure ()

def xmlBody (name : String) : ι → Emit (Print ι) Unit := modeBody d (cmdBody d) name

def blfsXmlBody (name : String) : ι → Emit (Print ι) Unit := modeBody d (paraRule d) name

/-- `xml -n name`. -/
def xmlMain [DecidableEq ι] (name : String) (fuel : ℕ) : Run (Print ι) :=
  walk d (xmlBody d name) fuel

/-- `blfs-xml -n name`. -/
def blfsXmlMain [DecidableEq ι] (name : String) (fuel : ℕ) : Run (Print ι) :=
  walk d (blfsXmlBody d name) fuel

@[simp] theorem xmlBody_cmd (node : ι) : xmlBody d "cmd" node = cmdBody d node := by
  simp [xmlBody, modeBody]

/-- The walk of both programs visits exactly the proper descendants of the root,
each once and in document order, and then ends; either program executes its loop
body at these nodes in this order, for as long as no null pointer is followed. -/
theorem walk_visits_descendants [DecidableEq ι] :
    (∃ steps, ∀ fuel, steps ≤ fuel →
      walk d (fun v => emit [v]) fuel = ⟨d.tree.preorder, .exited⟩) ∧
    d.tree.preorder.Nodup ∧
    (∀ x, x ∈ d.tree.preorder ↔ d.links.Descendant d.proot x) ∧
    d.proot ∉ d.tree.preorder ∧
    ∀ name, ∃ steps, ∀ fuel, steps ≤ fuel →
      xmlMain d name fuel = bodyRun (xmlBody d name) d.tree.preorder [] ∧
      blfsXmlMain d name fuel = bodyRun (blfsXmlBody d name) d.tree.preorder [] := by
  refine ⟨?_, d.nodup, d.linked.mem_iff_descendant, d.proot_not_mem, fun name => ?_⟩
  · obtain ⟨steps, hs⟩ := walk_eq_bodyRun d (fun v => emit [v])
    refine ⟨steps, fun fuel hf => (hs fuel hf).trans ?_⟩
    have key : ∀ (vs acc : List ι),
        bodyRun (fun v => emit [v]) vs acc = ⟨acc ++ vs, .exited⟩ := by
      intro vs
      induction vs with
      | nil => intro acc; simp [bodyRun]
      | cons v vs ih => intro acc; simp [bodyRun, ih]
    exact key d.tree.preorder []
  · obtain ⟨m, hm⟩ := walk_eq_bodyRun d (xmlBody d name)
    obtain ⟨n, hn⟩ := walk_eq_bodyRun d (blfsXmlBody d name)
    exact ⟨max m n, fun fuel hf => ⟨hm fuel (by omega), hn fuel (by omega)⟩⟩

end HaoosLfs.XmlParse
