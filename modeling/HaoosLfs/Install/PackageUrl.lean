import HaoosLfs.Install.InstallFile
import HaoosLfs.XmlParse.Packages

/-!
# The url of a package (`install.sh:70-76`, `build.sh:114-119`)

`uncompress_pkg` searches in what `xml -n pkg` has written: from the lines that match
the key, and three lines after each of them, it takes the first with `Download`.
-/

namespace HaoosLfs.Install
open Text ShellWords XmlParse

/-- The lines of `packages.pkg` above the download of an entry, after these entries. -/
def linesAbove (before : List Entry) (e : Entry) : List Text :=
  fileLines (before.flatMap Entry.text ++ e.headText)

def downloadText (e : Entry) : Text := "Download: ".toList ++ e.url.toList

/-- With this key, `uncompress_pkg` selects the line with the download of the entry,
which has its number. -/
def SelectsUrl (grep : Text → Text → Bool) (key pkg : Text) (before : List Entry) (e : Entry) :
    Prop :=
  downloadLine Prod.fst grep key (fileLines pkg).zipIdx =
    some (downloadText e, (linesAbove before e).length)

theorem headText_newline (e : Entry) : ∃ a, e.headText = a ++ ['\n'] := by
  cases hh : e.home with
  | none => exact ⟨e.name.toList ++ e.rest.toList, by simp [Entry.headText, hh]⟩
  | some h =>
    exact ⟨e.name.toList ++ (e.rest.toList ++ '\n' :: ("Home page: ".toList ++ h.toList)),
      by simp [Entry.headText, hh]⟩

theorem newline_downloadText (e : Entry) : '\n' ∉ e.url.toList ↔ '\n' ∉ downloadText e := by
  have hlabel : '\n' ∉ "Download: ".toList := by decide
  unfold downloadText
  rw [List.mem_append, not_or, and_iff_right hlabel]

theorem contains_downloadText (e : Entry) : contains (downloadText e) "Download".toList :=
  contains_iff.mpr ⟨[], ": ".toList ++ e.url.toList, rfl⟩

def textBelow (e : Entry) (after : List Entry) : Text :=
  "MD5 sum: ".toList ++ (e.md5.toList ++ '\n' :: after.flatMap Entry.text)

theorem text_append (e : Entry) (after : List Entry) :
    e.text ++ after.flatMap Entry.text =
      e.headText ++ (downloadText e ++ '\n' :: textBelow e after) := by
  unfold downloadText textBelow
  generalize after.flatMap Entry.text = rest
  unfold Entry.text
  simp only [List.append_assoc, List.cons_append, List.nil_append]

theorem text_split (before : List Entry) (e : Entry) (after : List Entry) :
    (before ++ e :: after).flatMap Entry.text =
      (before.flatMap Entry.text ++ e.headText) ++
        (downloadText e ++ '\n' :: textBelow e after) := by
  rw [List.flatMap_append, List.flatMap_cons, text_append, List.append_assoc]

theorem fileLines_entries (before : List Entry) (e : Entry) (after : List Entry) :
    fileLines ((before ++ e :: after).flatMap Entry.text) =
      linesAbove before e ++ fileLines (downloadText e ++ '\n' :: textBelow e after) := by
  obtain ⟨a, ha⟩ := headText_newline e
  rw [text_split, linesAbove, ha]
  generalize downloadText e ++ '\n' :: textBelow e after = below
  have hline := fileLines_append_newline (before.flatMap Entry.text ++ a) below
  simp only [List.append_assoc, List.cons_append, List.nil_append] at hline ⊢
  exact hline

theorem downloadLine_zipIdx_iff {grep : Text → Text → Bool} {key : Text} {above below : List Text}
    {l : Text} (hl : contains l "Download".toList) :
    downloadLine Prod.fst grep key (above ++ l :: below).zipIdx = some (l, above.length) ↔
      Shown 3 (grep ('^' :: key)) above l ∧
        ∀ above' m below', above = above' ++ m :: below' → contains m "Download".toList →
          ¬ Shown 3 (grep ('^' :: key)) above' m := by
  have hidx : (above ++ l :: below).zipIdx =
      above.zipIdx ++ (l, above.length) :: below.zipIdx (above.length + 1) := by
    rw [List.zipIdx_append, List.zipIdx_cons, Nat.zero_add]
  have hx : (l, above.length) ∉ above.zipIdx := fun h =>
    absurd (List.snd_lt_of_mem_zipIdx h) (by simp)
  have hy : (l, above.length) ∉ below.zipIdx (above.length + 1) := fun h =>
    absurd (List.le_snd_of_mem_zipIdx h) (by simp)
  have habove : above.zipIdx.map Prod.fst = above := List.zipIdx_map_fst 0 above
  have hshown := shown_map (n := 3) (p := grep ('^' :: key)) Prod.fst above.zipIdx
    (l, above.length)
  have hsplit := @forall_split_map _ _ (fun above' m => contains m "Download".toList →
    ¬ Shown 3 (grep ('^' :: key)) above' m) Prod.fst above.zipIdx
  rw [habove] at hshown hsplit
  unfold downloadLine
  rw [hidx, head?_grepAfter_iff hx hy, hsplit, hshown, and_iff_right hl]
  simp only [shown_map]

theorem downloadLine_map {α β : Type} (f : α → β) (text : β → Text) (grep : Text → Text → Bool)
    (key : Text) (lines : List α) :
    (downloadLine (text ∘ f) grep key lines).map f = downloadLine text grep key (lines.map f) := by
  unfold downloadLine
  rw [grepAfter_map, List.filter_map, List.head?_map]
  rfl

/-- For every document with these entries and every key, `uncompress_pkg` selects the
download of an entry from what `xml -n pkg` writes exactly when the url is on one
line, the key matches this line or one of the three lines above it, and no line
further up that contains `Download` is matched in this way. -/
theorem selects_url_iff {ι : Type} [DecidableEq ι] (d : Doc ι) {entries : List Entry}
    (h : Describes d entries) :
    ∃ steps, ∀ fuel, steps ≤ fuel →
      ∀ (grep : Text → Text → Bool) (key : Text) (before : List Entry) (e : Entry)
        (after : List Entry), entries = before ++ e :: after →
        (SelectsUrl grep key (printedText (xmlMain d "pkg" fuel).printed) before e ↔
          '\n' ∉ e.url.toList ∧
          Shown 3 (grep ('^' :: key)) (linesAbove before e) (downloadText e) ∧
          ∀ above l below, linesAbove before e = above ++ l :: below →
            contains l "Download".toList → ¬ Shown 3 (grep ('^' :: key)) above l) := by
  obtain ⟨steps, hsteps⟩ := packages_text d h
  refine ⟨steps, fun fuel hf grep key before e after hsplit => ?_⟩
  unfold SelectsUrl
  rw [(hsteps fuel hf).2, hsplit, fileLines_entries]
  have hurl := newline_downloadText e
  have hdl := contains_downloadText e
  by_cases hn : '\n' ∉ downloadText e
  · rw [fileLines_cons hn, downloadLine_zipIdx_iff hdl, hurl, and_iff_right hn]
  · -- a line that is selected is one of the file
    refine iff_of_false (fun hsel => hn ?_) (fun hc => hn (hurl.mp hc.1))
    have hmem := grepAfter_subset _ _ (List.mem_of_mem_filter (List.mem_of_mem_head? hsel))
    rw [← fileLines_entries] at hmem
    exact not_newline_fileLines (List.fst_mem_of_mem_zipIdx hmem)

theorem selectsUrl_downloadLine {grep : Text → Text → Bool} {key pkg : Text}
    {before : List Entry} {e : Entry} (h : SelectsUrl grep key pkg before e) :
    downloadLine id grep key (fileLines pkg) = some (downloadText e) := by
  have hfst := downloadLine_map Prod.fst id grep key (fileLines pkg).zipIdx
  rw [List.zipIdx_map_fst] at hfst
  rw [← hfst, Function.id_comp, h, Option.map_some]

/-! ### Tcl and its documentation -/

def tclDocs : Entry := ⟨"Tcl Documentation", " (8.6.11) - ", none,
  "https://downloads.sourceforge.net/tcl/tcl8.6.11-html.tar.gz", "e358a9140c3a171e42f18c8a7f6a36ea"⟩

def tcl : Entry := ⟨"Tcl", " (8.6.11) - ", none,
  "https://downloads.sourceforge.net/tcl/tcl8.6.11-src.tar.gz", "8a4c004f48984a03a7747e9ba06e4da4"⟩

/-- The page with two entries without home page; the nodes of the second one have
sixteen more than those of the first. -/
def packagesDoc (first second : Entry) : Doc ℕ where
  type n :=
    if n % 16 ∈ [4, 7, 10, 12, 14] then .text
    else if n % 16 = 13 then .attribute else .element
  name n := (["variablelist", "varlistentry", "term", "listitem", "text", "para", "para", "text",
    "ulink", "literal", "text", "", "text", "url", "text"])[n % 16]?.getD ""
  content n :=
    let e := if n < 16 then first else second
    ([none, none, none, none, some (e.name ++ e.rest), none, none, some "Download: ", none, none,
      some "MD5 sum: ", none, some e.md5, none, some e.url] : List (Option String))[n % 16]?.join
  properties n := if n % 16 = 8 then some (n + 5) else none
  links :=
    { parent := fun n => match n % 16 with
        | 1 => some 0
        | 2 | 3 => some (n - n % 16 + 1)
        | 4 => some (n - 2)
        | 5 | 6 => some (n - n % 16 + 3)
        | 7 | 8 => some (n - n % 16 + 5)
        | 9 | 10 => some (n - n % 16 + 6)
        | 12 => some (n - 3)
        | 14 => some (n - 1)
        | _ => none
      children := fun n => match n % 16 with
        | 0 | 1 | 13 => some (n + 1)
        | 2 | 5 => some (n + 2)
        | 3 => some (n + 2)
        | 6 => some (n + 4)
        | 9 => some (n + 3)
        | _ => none
      next := fun n => match n with
        | 1 => some 17
        | 2 | 5 | 7 | 18 | 21 | 23 => some (n + 1)
        | 10 | 26 => some (n - 1)
        | _ => none }
  proot := 0
  tree := .node 1 (.node 2 (.node 4 .nil .nil) (.node 3 (.node 5 (.node 7 .nil (.node 8 .nil .nil))
    (.node 6 (.node 10 .nil (.node 9 (.node 12 .nil .nil) .nil)) .nil)) .nil))
    (.node 17 (.node 18 (.node 20 .nil .nil)
      (.node 19 (.node 21 (.node 23 .nil (.node 24 .nil .nil))
      (.node 22 (.node 26 .nil (.node 25 (.node 28 .nil .nil) .nil)) .nil)) .nil)) .nil)
  linked := by simp [Links.Holds]

/-- With its documentation after it, Tcl is selected. -/
theorem selects_url_tcl : ∃ steps, ∀ fuel, steps ≤ fuel →
    SelectsUrl grepLiteral "tcl".toList
      (printedText (xmlMain (packagesDoc tcl tclDocs) "pkg" fuel).printed) [] tcl := by
  have hd : Describes (packagesDoc tcl tclDocs) [tcl, tclDocs] := by
    unfold Describes
    decide +kernel
  obtain ⟨steps, hsteps⟩ := selects_url_iff (packagesDoc tcl tclDocs) hd
  refine ⟨steps, fun fuel hf => ?_⟩
  refine (hsteps fuel hf grepLiteral "tcl".toList [] tcl [tclDocs] rfl).mpr ⟨?_, ?_, ?_⟩
  · decide +kernel
  · unfold Shown
    decide +kernel
  · intro above l below hl hdl
    have hno : (linesAbove [] tcl).all (fun l => !contains l "Download".toList) = true := by
      decide +kernel
    have hmem : l ∈ linesAbove [] tcl := by
      rw [hl]
      exact List.mem_append_right _ List.mem_cons_self
    have hl' := List.all_eq_true.mp hno l hmem
    rw [hdl] at hl'
    cases hl'

/-- With its documentation before it, Tcl is not selected. -/
theorem not_selects_url_tcl : Describes (packagesDoc tclDocs tcl) [tclDocs, tcl] ∧
    ∃ steps, ∀ fuel, steps ≤ fuel →
      ¬ SelectsUrl grepLiteral "tcl".toList
        (printedText (xmlMain (packagesDoc tclDocs tcl) "pkg" fuel).printed) [tclDocs] tcl := by
  have hd : Describes (packagesDoc tclDocs tcl) [tclDocs, tcl] := by
    unfold Describes
    decide +kernel
  obtain ⟨steps, hsteps⟩ := packages_text _ hd
  refine ⟨hd, steps, fun fuel hf => ?_⟩
  rw [(hsteps fuel hf).2]
  unfold SelectsUrl
  decide +kernel

end HaoosLfs.Install
