import HaoosLfs.XmlParse.CommandText
import HaoosLfs.Lib.Text

/-!
# The package list printed by `xml -n pkg` (`xml.c:164-183`)

The file `packages.pkg` is what the program prints for `packages.xml`: the name of
a package, its home page, its download and its checksum, each on a line.
-/

namespace HaoosLfs.XmlParse
variable {ι : Type} (d : Doc ι)

/-! ### The rules at one node -/

/-- The text that a rule prints at a node, and which rule it is. -/
inductive PieceKind where
  | term
  | para
  | literal
  | ulink
  deriving DecidableEq

structure Piece where
  kind : PieceKind
  text : Option String
  deriving DecidableEq

def firstText (v : ι) : Option String := (d.links.children v).bind (getContent d)

def pieceOf (v : ι) : Option Piece :=
  if IsUnder d v "term" "varlistentry" then some ⟨.term, firstText d v⟩
  else if IsUnder d v "para" "listitem" then some ⟨.para, firstText d v⟩
  else if d.name v = "literal" then some ⟨.literal, firstText d v⟩
  else if d.name v = "ulink" then some ⟨.ulink, (d.properties v).bind (firstText d)⟩
  else none

/-- Only the rule for `para` prints no newline. -/
def Piece.print (p : Piece) : Text :=
  (p.text.getD "(null)").toList ++ if p.kind = .para then [] else ['\n']

/-- What the calls of `printf` write. -/
def printedText (ps : List (Print ι)) : Text :=
  ps.flatMap fun e => (e.text.getD "(null)").toList ++ if e.newline then ['\n'] else []

theorem printedText_append (ps qs : List (Print ι)) :
    printedText (ps ++ qs) = printedText ps ++ printedText qs := List.flatMap_append

theorem underRule_eq {v p : ι} (hp : d.links.parent v = some p) (parent name : String)
    (newline : Bool) :
    underRule d parent name newline v =
      if IsUnder d v name parent then printContent d newline (d.links.children v) else pure () := by
  by_cases h : IsUnder d v name parent
  · have hpar : d.name p = parent := by
      have hmap := h.2
      rw [hp] at hmap
      exact Option.some.inj hmap
    rw [if_pos h, underRule, hp, deref_some, pure_bind, if_pos ⟨hpar, h.1⟩]
  · have hno : ¬ (d.name p = parent ∧ d.name v = name) := fun e =>
      h ⟨e.2, by rw [hp, Option.map_some, e.1]⟩
    rw [if_neg h, underRule, hp, deref_some, pure_bind, if_neg hno]

theorem printContent_text {v : Option ι} {s : String} (newline : Bool)
    (h : v.bind (getContent d) = some s) :
    ∃ c, printContent d newline v = emit [⟨c, some s, newline⟩] := by
  obtain ⟨c, rfl, hc⟩ := Option.bind_eq_some_iff.mp h
  refine ⟨c, ?_⟩
  rw [printContent, deref_some, pure_bind, printNode_of_isSome d (by rw [hc]; rfl), printed, hc]

theorem pkgBody_eq {v p : ι} (hp : d.links.parent v = some p) :
    pkgBody d v =
      if IsUnder d v "term" "varlistentry" then printContent d true (d.links.children v)
      else if IsUnder d v "para" "listitem" then printContent d false (d.links.children v)
      else if d.name v = "literal" then printContent d true (d.links.children v)
      else if d.name v = "ulink" then printUrl d (d.properties v)
      else pure () := by
  unfold pkgBody
  rw [underRule_eq d hp, underRule_eq d hp]
  unfold pkgLiteralRule pkgUlinkRule
  have hother : ∀ {a b : String}, d.name v = a → a ≠ b → d.name v ≠ b := by
    intro a b ha hab
    rw [ha]
    exact hab
  by_cases hterm : IsUnder d v "term" "varlistentry"
  · have hpara : ¬ IsUnder d v "para" "listitem" := not_under_both d hterm (by decide)
    have hlit : d.name v ≠ "literal" := hother hterm.1 (by decide)
    have hulink : d.name v ≠ "ulink" := hother hterm.1 (by decide)
    simp only [if_pos hterm, if_neg hpara, if_neg hlit, if_neg hulink, pure_bind, bind_pure_unit]
  · by_cases hpara : IsUnder d v "para" "listitem"
    · have hlit : d.name v ≠ "literal" := hother hpara.1 (by decide)
      have hulink : d.name v ≠ "ulink" := hother hpara.1 (by decide)
      simp only [if_neg hterm, if_pos hpara, if_neg hlit, if_neg hulink, pure_bind, bind_pure_unit]
    · by_cases hlit : d.name v = "literal"
      · have hulink : d.name v ≠ "ulink" := hother hlit (by decide)
        simp only [if_neg hterm, if_neg hpara, if_pos hlit, if_neg hulink, pure_bind,
          bind_pure_unit]
      · simp only [if_neg hterm, if_neg hpara, if_neg hlit, pure_bind]

theorem pkgBody_piece {v p : ι} (hp : d.links.parent v = some p)
    (htext : ∀ pc ∈ pieceOf d v, pc.text.isSome) :
    ∃ ps, pkgBody d v = emit ps ∧
      printedText ps = (pieceOf d v).toList.flatMap Piece.print := by
  rw [pkgBody_eq d hp]
  have hchild : ∀ (kind : PieceKind) (newline : Bool), (newline = decide (kind ≠ .para)) →
      pieceOf d v = some ⟨kind, firstText d v⟩ →
      ∃ ps, printContent d newline (d.links.children v) = emit ps ∧
        printedText ps = (pieceOf d v).toList.flatMap Piece.print := by
    intro kind newline hnl hpc
    obtain ⟨s, hs⟩ := Option.isSome_iff_exists.mp (htext _ hpc)
    obtain ⟨c, hprint⟩ := printContent_text d newline hs
    refine ⟨_, hprint, ?_⟩
    have hs' : firstText d v = some s := hs
    rw [hpc, hs', hnl]
    by_cases hk : kind = .para
    · simp [printedText, Piece.print, hk]
    · simp [printedText, Piece.print, hk]
  by_cases hterm : IsUnder d v "term" "varlistentry"
  · rw [if_pos hterm]
    exact hchild .term true rfl (if_pos hterm)
  rw [if_neg hterm]
  by_cases hpara : IsUnder d v "para" "listitem"
  · rw [if_pos hpara]
    exact hchild .para false rfl (by rw [pieceOf, if_neg hterm, if_pos hpara])
  rw [if_neg hpara]
  by_cases hlit : d.name v = "literal"
  · rw [if_pos hlit]
    exact hchild .literal true rfl (by rw [pieceOf, if_neg hterm, if_neg hpara, if_pos hlit])
  rw [if_neg hlit]
  by_cases hulink : d.name v = "ulink"
  · have hpc : pieceOf d v = some ⟨.ulink, (d.properties v).bind (firstText d)⟩ := by
      rw [pieceOf, if_neg hterm, if_neg hpara, if_neg hlit, if_pos hulink]
    obtain ⟨s, hs⟩ := Option.isSome_iff_exists.mp (htext _ hpc)
    obtain ⟨a, ha, hs'⟩ := Option.bind_eq_some_iff.mp hs
    obtain ⟨c, hprint⟩ := printContent_text d true hs'
    refine ⟨_, by rw [if_pos hulink, printUrl, ha, deref_some, pure_bind, hprint], ?_⟩
    have hs'' : (d.properties v).bind (firstText d) = some s := hs
    rw [hpc, hs'']
    simp [printedText, Piece.print]
  · have hpc : pieceOf d v = none := by
      rw [pieceOf, if_neg hterm, if_neg hpara, if_neg hlit, if_neg hulink]
    refine ⟨[], by rw [if_neg hulink]; rfl, ?_⟩
    rw [hpc]
    rfl

/-! ### The file -/

/-- An entry of `packages.xml`: the name and the rest of the term, the home page where
there is one, the download and the checksum. -/
structure Entry where
  name : String
  rest : String
  home : Option String
  url : String
  md5 : String
  deriving DecidableEq

def Entry.pieces (e : Entry) : List Piece :=
  ⟨.term, some (e.name ++ e.rest)⟩ ::
    ((e.home.toList.flatMap fun h => [⟨.para, some "Home page: "⟩, ⟨.ulink, some h⟩]) ++
      [⟨.para, some "Download: "⟩, ⟨.ulink, some e.url⟩, ⟨.para, some "MD5 sum: "⟩,
        ⟨.literal, some e.md5⟩])

/-- The terms, paragraphs, links and literals of the document, in document order, are
those of the entries. -/
def Describes (entries : List Entry) : Prop :=
  d.tree.preorder.filterMap (pieceOf d) = entries.flatMap Entry.pieces

def Entry.headText (e : Entry) : Text :=
  e.name.toList ++ (e.rest.toList ++ ('\n' ::
    e.home.toList.flatMap fun h => "Home page: ".toList ++ (h.toList ++ ['\n'])))

def Entry.text (e : Entry) : Text :=
  e.headText ++ ("Download: ".toList ++ (e.url.toList ++ ('\n' ::
    ("MD5 sum: ".toList ++ (e.md5.toList ++ ['\n'])))))

theorem Entry.pieces_print (e : Entry) : e.pieces.flatMap Piece.print = e.text := by
  cases hh : e.home with
  | none => simp [Entry.pieces, Entry.text, Entry.headText, Piece.print, hh]
  | some h => simp [Entry.pieces, Entry.text, Entry.headText, Piece.print, hh]

theorem Entry.pieces_text {e : Entry} {pc : Piece} (h : pc ∈ e.pieces) : pc.text.isSome := by
  cases hh : e.home with
  | none =>
    simp only [Entry.pieces, hh, Option.toList_none, List.flatMap_nil, List.nil_append,
      List.mem_cons, List.not_mem_nil, or_false] at h
    rcases h with rfl | rfl | rfl | rfl | rfl <;> rfl
  | some home =>
    simp only [Entry.pieces, hh, Option.toList_some, List.flatMap_cons, List.flatMap_nil,
      List.append_nil, List.cons_append, List.nil_append, List.mem_cons, List.not_mem_nil,
      or_false] at h
    rcases h with rfl | rfl | rfl | rfl | rfl | rfl | rfl <;> rfl

/-- For every document with these entries, the program ends and writes their texts. -/
theorem packages_text [DecidableEq ι] {entries : List Entry} (h : Describes d entries) :
    ∃ steps, ∀ fuel, steps ≤ fuel → (xmlMain d "pkg" fuel).status = .exited ∧
      printedText (xmlMain d "pkg" fuel).printed = entries.flatMap Entry.text := by
  obtain ⟨steps, hs⟩ := walk_eq_bodyRun d (xmlBody d "pkg")
  have htext : ∀ v ∈ d.tree.preorder, ∀ pc ∈ pieceOf d v, pc.text.isSome := by
    intro v hv pc hpc
    have hmem : pc ∈ entries.flatMap Entry.pieces := by
      rw [← h]
      exact List.mem_filterMap.mpr ⟨v, hv, hpc⟩
    obtain ⟨e, -, he⟩ := List.mem_flatMap.mp hmem
    exact Entry.pieces_text he
  have hrun : ∀ (vs : List ι), vs ⊆ d.tree.preorder → ∀ acc : List (Print ι),
      (bodyRun (xmlBody d "pkg") vs acc).status = .exited ∧
        printedText (bodyRun (xmlBody d "pkg") vs acc).printed =
          printedText acc ++ (vs.filterMap (pieceOf d)).flatMap Piece.print := by
    intro vs
    induction vs with
    | nil =>
      intro _ acc
      exact ⟨rfl, by simp [bodyRun]⟩
    | cons v vs ih =>
      intro hsub acc
      have hv := hsub List.mem_cons_self
      obtain ⟨p, hp⟩ := exists_parent d hv
      obtain ⟨ps, hbody, hprint⟩ := pkgBody_piece d hp (htext v hv)
      have hxml : xmlBody d "pkg" v = emit ps := by
        rw [← hbody]
        simp [xmlBody, modeBody]
      obtain ⟨hst, hout⟩ := ih (fun w hw => hsub (List.mem_cons_of_mem _ hw)) (acc ++ ps)
      simp only [bodyRun, hxml, emit_result, emit_printed]
      refine ⟨hst, ?_⟩
      rw [hout, printedText_append, hprint, List.append_assoc]
      cases hpc : pieceOf d v with
      | none => simp [hpc]
      | some pc => simp [hpc]
  refine ⟨steps, fun fuel hf => ?_⟩
  have hdone := hrun d.tree.preorder (List.Subset.refl _) []
  rw [xmlMain, hs fuel hf]
  refine ⟨hdone.1, ?_⟩
  rw [hdone.2, h, List.flatMap_assoc]
  exact List.flatMap_congr fun e _ => e.pieces_print

end HaoosLfs.XmlParse
