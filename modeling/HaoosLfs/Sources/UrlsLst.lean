import HaoosLfs.Book.Xml
import HaoosLfs.Lib.LineFold
import HaoosLfs.Sources.Urls

/-!
# urls.lst (`urls.xsl:8-54`, `download-lfs-source.sh:26-46`)

The stylesheet writes one line for each link of the packages chapter, with the checksum
from the paragraphs after it, and the download script reads the lines back field by field.
-/

namespace HaoosLfs.Sources
open Book Text

structure UrlsParams where
  pkgmngt : Text := "n".toList
  revision : Text := "sysv".toList

/-! ### The links -/

/-- A node with its ancestors, the nearest first, and what follows its parent. -/
structure Place where
  anc : List Node
  after : Xml
  node : Node

/-- All nodes of a forest in document order; `after` follows the parent of its trees. -/
def places (anc : List Node) (after : Xml) : Xml → List Place
  | .nil => []
  | .node i cs ss => ⟨anc, after, (i, cs)⟩ :: (places ((i, cs) :: anc) ss cs ++ places anc after ss)

/-- `varlistentry[@revision=$revision or not(@revision)]` -/
def isEntry (p : UrlsParams) (n : Node) : Bool :=
  n.1.isElement "varlistentry" && (n.1.attr "revision").all fun r => decide (r = p.revision)

/-- The links that the template `/` is applied to, in the document of the packages and in
`packageManager.xml`. -/
def links (p : UrlsParams) (packages packageManager : Xml) : List Place :=
  ((places [] .nil packages).filter fun u =>
    u.node.1.isElement "ulink" && u.anc.any (isEntry p)) ++
  if p.pkgmngt = ['y'] then
    (places [] .nil packageManager).filter fun u => u.node.1.isElement "ulink"
  else []

def Place.url (u : Place) : Text := (u.node.1.attr "url").getD []

/-- `ancestor-or-self::*/@condition = 'pdf'` -/
def Place.pdf (u : Place) : Bool :=
  (u.node :: u.anc).any fun n => decide (n.1.attr "condition" = some "pdf".toList)

/-- `../following-sibling::para/literal` -/
def Place.literals (u : Place) : List Node :=
  (child "para" u.after).flatMap fun para => child "literal" para.2

/-- The value of the first one, or nothing. -/
def Place.md5 (u : Place) : Text := (u.literals.head?.map fun l => stringValue l.2).getD []

/-- Each node has one place, in document order. -/
theorem places_node (anc : List Node) (after f : Xml) :
    (places anc after f).map Place.node = f.subtrees := by
  induction f generalizing anc after with
  | nil => rfl
  | node i cs ss ihc ihs =>
    rw [places, List.map_cons, List.map_append, ihc, ihs]
    rfl

/-- The ancestors of a place are the nodes that it is below. -/
theorem exists_ancestor_iff {anc : List Node} {after f : Xml} {n e : Node} :
    (∃ u ∈ places anc after f, u.node = n ∧ e ∈ u.anc) ↔
      (e ∈ anc ∧ n ∈ f.subtrees) ∨ (e ∈ f.subtrees ∧ n ∈ e.2.subtrees) := by
  induction f generalizing anc after with
  | nil => simp [places, Forest.subtrees]
  | node i cs ss ihc ihs =>
    have hsplit : (∃ u ∈ places anc after (.node i cs ss), u.node = n ∧ e ∈ u.anc) ↔
        ((i, cs) = n ∧ e ∈ anc) ∨ (∃ u ∈ places ((i, cs) :: anc) ss cs, u.node = n ∧ e ∈ u.anc) ∨
          ∃ u ∈ places anc after ss, u.node = n ∧ e ∈ u.anc := by
      simp only [places, List.mem_cons, List.mem_append, or_and_right, exists_or, exists_eq_left]
    rw [hsplit, ihc, ihs]
    simp only [Forest.subtrees, List.mem_cons, List.mem_append]
    constructor
    · rintro (⟨rfl, he⟩ | (⟨rfl | he, hn⟩ | ⟨he, hn⟩) | (⟨he, hn⟩ | ⟨he, hn⟩))
      · exact .inl ⟨he, .inl rfl⟩
      · exact .inr ⟨.inl rfl, hn⟩
      · exact .inl ⟨he, .inr (.inl hn)⟩
      · exact .inr ⟨.inr (.inl he), hn⟩
      · exact .inl ⟨he, .inr (.inr hn)⟩
      · exact .inr ⟨.inr (.inr he), hn⟩
    · rintro (⟨he, rfl | hn | hn⟩ | ⟨rfl | he | he, hn⟩)
      · exact .inl ⟨rfl, he⟩
      · exact .inr (.inl (.inl ⟨.inr he, hn⟩))
      · exact .inr (.inr (.inl ⟨he, hn⟩))
      · exact .inr (.inl (.inl ⟨.inl rfl, hn⟩))
      · exact .inr (.inl (.inr ⟨he, hn⟩))
      · exact .inr (.inr (.inr ⟨he, hn⟩))

/-- The links are the elements `ulink` below an entry of this revision, and those of the
document of the package manager when there is one. -/
theorem mem_links_iff {p : UrlsParams} {packages packageManager : Xml} {n : Node} :
    n ∈ (links p packages packageManager).map Place.node ↔
      (∃ e ∈ packages.subtrees, isEntry p e ∧ n ∈ descendant "ulink" e.2) ∨
        p.pkgmngt = ['y'] ∧ n ∈ descendant "ulink" packageManager := by
  have hentry : n ∈ (((places [] .nil packages).filter fun u =>
      u.node.1.isElement "ulink" && u.anc.any (isEntry p)).map Place.node) ↔
        ∃ e ∈ packages.subtrees, isEntry p e ∧ n ∈ descendant "ulink" e.2 := by
    have hplace : ∀ e, (∃ u ∈ places [] .nil packages, u.node = n ∧ e ∈ u.anc) ↔
        e ∈ packages.subtrees ∧ n ∈ e.2.subtrees := by
      intro e
      rw [exists_ancestor_iff]
      simp
    simp only [List.mem_map, List.mem_filter, Bool.and_eq_true, List.any_eq_true, descendant]
    constructor
    · rintro ⟨u, ⟨hu, hul, e, he, hent⟩, rfl⟩
      obtain ⟨hmem, hbelow⟩ := (hplace e).mp ⟨u, hu, rfl, he⟩
      exact ⟨e, hmem, hent, hbelow, hul⟩
    · rintro ⟨e, hmem, hent, hbelow, hul⟩
      obtain ⟨u, hu, rfl, he⟩ := (hplace e).mpr ⟨hmem, hbelow⟩
      exact ⟨u, ⟨hu, hul, e, he, hent⟩, rfl⟩
  have hall : ((places [] .nil packageManager).filter fun u =>
      u.node.1.isElement "ulink").map Place.node = descendant "ulink" packageManager := by
    have hfilter := List.filter_map (f := Place.node) (l := places [] .nil packageManager)
      (p := fun n => n.1.isElement "ulink")
    rw [places_node] at hfilter
    exact hfilter.symm
  unfold links
  rw [List.map_append, List.mem_append, hentry]
  split_ifs with hy
  · rw [hall, and_iff_right hy]
  · simp [hy]

/-- What follows the parent of a node is the rest of the siblings of this parent. -/
theorem after_of_mem_places {anc : List Node} {after f : Xml} {u : Place}
    (hu : u ∈ places anc after f) :
    (u.anc = anc ∧ u.after = after ∧ u.node ∈ f.trees) ∨
      ∃ parent, u.anc.head? = some parent ∧ u.node ∈ parent.2.trees ∧
        ∃ g, (g = f ∨ g ∈ f.subtrees.map Prod.snd) ∧
          ∃ before, g.trees = before ++ parent :: u.after.trees := by
  induction f generalizing anc after with
  | nil => cases hu
  | node i cs ss ihc ihs =>
    rw [places, List.mem_cons, List.mem_append] at hu
    rcases hu with rfl | hu | hu
    · exact .inl ⟨rfl, rfl, List.mem_cons_self⟩
    · rcases ihc hu with ⟨hanc, hafter, hnode⟩ | ⟨parent, hhead, hnode, g, hg, before, htrees⟩
      · refine .inr ⟨(i, cs), by rw [hanc]; rfl, hnode, _, .inl rfl, [], ?_⟩
        rw [hafter]
        rfl
      · refine .inr ⟨parent, hhead, hnode, g, .inr ?_, before, htrees⟩
        rcases hg with rfl | hg
        · exact List.mem_cons_self
        · rw [Forest.subtrees, List.map_cons, List.map_append]
          exact List.mem_cons_of_mem _ (List.mem_append_left _ hg)
    · rcases ihs hu with ⟨hanc, hafter, hnode⟩ | ⟨parent, hhead, hnode, g, hg, before, htrees⟩
      · exact .inl ⟨hanc, hafter, List.mem_cons_of_mem _ hnode⟩
      · rcases hg with rfl | hg
        · refine .inr ⟨parent, hhead, hnode, _, .inl rfl, (i, cs) :: before, ?_⟩
          rw [Forest.trees, htrees]
          rfl
        · refine .inr ⟨parent, hhead, hnode, g, .inr ?_, before, htrees⟩
          rw [Forest.subtrees, List.map_cons, List.map_append]
          exact List.mem_cons_of_mem _ (List.mem_append_right _ hg)

/-- The checksum is the value of the first literal in the first such paragraph that has one. -/
theorem md5_first {u : Place} {before rest : List Node} {para l : Node}
    (hafter : child "para" u.after = before ++ para :: rest)
    (hnone : ∀ q ∈ before, child "literal" q.2 = [])
    (hfirst : (child "literal" para.2).head? = some l) : u.md5 = stringValue l.2 := by
  obtain ⟨ls, hls⟩ := List.head?_eq_some_iff.mp hfirst
  have hliterals : u.literals = l :: (ls ++ rest.flatMap fun q => child "literal" q.2) := by
    unfold Place.literals
    rw [hafter, List.flatMap_append, List.flatMap_eq_nil_iff.mpr hnone, List.flatMap_cons, hls]
    rfl
  unfold Place.md5
  rw [hliterals]
  rfl

theorem md5_none {u : Place} (hnone : ∀ q ∈ child "para" u.after, child "literal" q.2 = []) :
    u.md5 = [] := by
  have hliterals : u.literals = [] := List.flatMap_eq_nil_iff.mpr hnone
  unfold Place.md5
  rw [hliterals]
  rfl

def urlLine (u : Place) : Text :=
  match ulink u.pdf u.url u.md5 with
  | some line => line ++ ['\n']
  | none => []

def urlsLst (p : UrlsParams) (packages packageManager : Xml) : Text :=
  (links p packages packageManager).flatMap urlLine

/-! ### What is read back -/

def accepted (p : UrlsParams) (packages packageManager : Xml) : List Place :=
  (links p packages packageManager).filter fun u => isPackageUrl u.url && !u.pdf

structure IsReadable (u : Place) : Prop where
  url : ∀ c ∈ u.url, isSpace c = false
  upstream : upstreamUrl u.url ≠ []
  md5 : ∀ c ∈ u.md5, isSpace c = false

def Place.line (u : Place) : Text := upstreamUrl u.url ++ ' ' :: u.md5

theorem urlLine_eq (u : Place) :
    urlLine u = if isPackageUrl u.url && !u.pdf then u.line ++ ['\n'] else [] := by
  unfold urlLine ulink
  split_ifs <;> rfl

theorem urlsLst_eq (p : UrlsParams) (packages packageManager : Xml) :
    urlsLst p packages packageManager =
      (((accepted p packages packageManager).map Place.line).map fun l => l ++ ['\n']).flatten := by
  unfold urlsLst accepted
  induction links p packages packageManager with
  | nil => rfl
  | cons u us ih =>
    rw [List.flatMap_cons, ih, urlLine_eq]
    by_cases hu : (isPackageUrl u.url && !u.pdf) = true
    · rw [if_pos hu, List.filter_cons, if_pos hu]
      rfl
    · rw [if_neg hu, List.filter_cons, if_neg hu]
      rfl

theorem mem_upstreamUrl {c : Char} {url : Text} (h : c ∈ upstreamUrl url) : c ∈ url := by
  unfold upstreamUrl at h
  split_ifs at h with hq
  · rw [before_key_after hq]
    exact List.mem_append_left _ h
  · exact h

theorem dropBlanks {t : Text} (ht : t ≠ []) (hblank : ' ' ∉ t) (s : Text) :
    (t ++ s).dropWhile (· = ' ') = t ++ s := by
  obtain ⟨c, t, rfl⟩ := List.exists_cons_of_ne_nil ht
  have hc : c ≠ ' ' := by
    rintro rfl
    exact hblank List.mem_cons_self
  exact List.dropWhile_cons_of_neg (by simpa using hc)

theorem readUrlMd5_fields {v m : Text} (hv : v ≠ []) (hblank : ' ' ∉ v) (hm : ' ' ∉ m) :
    readUrlMd5 (v ++ ' ' :: m) = (v, m) := by
  have hv' : v.reverse ≠ [] := List.reverse_ne_nil_iff.mpr hv
  have hblank' : ' ' ∉ v.reverse := fun h => hblank (List.mem_reverse.mp h)
  have hdrop : ∀ c ∈ v, decide (c ≠ ' ') = true := fun c hc => by
    rw [decide_eq_true_eq]
    rintro rfl
    exact hblank hc
  refine Prod.ext (readUrlMd5_url hv hblank m) ?_
  unfold readUrlMd5
  dsimp only
  rw [dropBlanks hv hblank]
  by_cases hnil : m = []
  · subst hnil
    have hrev : (v ++ [' ']).reverse.dropWhile (· = ' ') = v.reverse := by
      rw [List.reverse_append, List.reverse_singleton, List.singleton_append,
        List.dropWhile_cons_of_pos (by simp)]
      simpa using dropBlanks hv' hblank' []
    rw [hrev, List.reverse_reverse, List.dropWhile_eq_nil_iff.mpr hdrop]
    rfl
  · have hm' : m.reverse ≠ [] := List.reverse_ne_nil_iff.mpr hnil
    have hrev : (v ++ ' ' :: m).reverse.dropWhile (· = ' ') = (v ++ ' ' :: m).reverse := by
      rw [List.reverse_append, List.reverse_cons, List.append_assoc]
      exact dropBlanks hm' (fun h => hm (List.mem_reverse.mp h)) _
    have hrest : m.dropWhile (· = ' ') = m := by simpa using dropBlanks hnil hm []
    rw [hrev, List.reverse_reverse, List.dropWhile_append_of_pos hdrop,
      List.dropWhile_cons_of_neg (by simp), List.dropWhile_cons_of_pos (by simp), hrest]

/-- What the download script reads is one pair for each accepted link, in document order:
the url up to its first question mark and the first literal that follows. -/
theorem urls_lst_read (p : UrlsParams) (packages packageManager : Xml)
    (h : ∀ u ∈ accepted p packages packageManager, IsReadable u) :
    (fileLines (urlsLst p packages packageManager)).map readUrlMd5 =
      (accepted p packages packageManager).map fun u => (upstreamUrl u.url, u.md5) := by
  have hspace : ∀ {s : Text}, (∀ c ∈ s, isSpace c = false) → ' ' ∉ s ∧ '\n' ∉ s := by
    intro s hs
    exact ⟨fun hc => absurd (hs ' ' hc) (by decide), fun hc => absurd (hs '\n' hc) (by decide)⟩
  have hurl : ∀ u ∈ accepted p packages packageManager, ∀ c ∈ upstreamUrl u.url,
      isSpace c = false :=
    fun u hu c hc => (h u hu).url c (mem_upstreamUrl hc)
  have hlines : ∀ l ∈ (accepted p packages packageManager).map Place.line, '\n' ∉ l := by
    intro l hl
    obtain ⟨u, hu, rfl⟩ := List.mem_map.mp hl
    unfold Place.line
    rw [List.mem_append, List.mem_cons]
    rintro (hc | hc | hc)
    · exact (hspace (hurl u hu)).2 hc
    · exact absurd hc (by decide)
    · exact (hspace (h u hu).md5).2 hc
  rw [urlsLst_eq, fileLines_of_lines hlines, List.map_map]
  refine List.map_congr_left fun u hu => ?_
  exact readUrlMd5_fields (h u hu).upstream (hspace (hurl u hu)).1 (hspace (h u hu).md5).1

/-! ### A chapter with three packages -/

def paraWith (item : Item) (s : String) (rest : Xml) : Xml :=
  .node (.element "para" []) (.node item (.node (.text s.toList) .nil .nil) .nil) rest

def packageEntry (attrs : List (String × Text)) (url : String) (after rest : Xml) : Xml :=
  .node (.element "varlistentry" attrs)
    (.node (.element "listitem" [])
      (paraWith (.element "ulink" [("url", url.toList)]) url after) .nil) rest

/-- The second package is for another system, and the third one has no checksum. -/
def samplePackages : Xml :=
  .node (.element "variablelist" [])
    (packageEntry [] "https://ftp.gnu.org/gnu/m4/m4-1.4.19.tar.xz"
      (paraWith (.element "literal" []) "0d90823e1426f1da2fd872df0311298d" .nil)
    (packageEntry [("revision", "systemd".toList)] "https://github.com/dbus-1.12.20.tar.gz" .nil
    (packageEntry [("revision", "sysv".toList)] "https://example.org/eudev-3.2.10.tar.gz?dl=1" .nil
      .nil))) .nil

theorem urls_lst_read_sample :
    (fileLines (urlsLst {} samplePackages .nil)).map readUrlMd5 =
      (accepted {} samplePackages .nil).map fun u => (upstreamUrl u.url, u.md5) := by
  have hall : ((accepted {} samplePackages .nil).all fun u =>
      u.url.all (fun c => !isSpace c) && (decide (upstreamUrl u.url ≠ []) &&
        u.md5.all fun c => !isSpace c)) = true := by decide +kernel
  refine urls_lst_read {} samplePackages .nil fun u hu => ?_
  have hu' := List.all_eq_true.mp hall u hu
  simp only [Bool.and_eq_true, List.all_eq_true, Bool.not_eq_true', decide_eq_true_eq] at hu'
  exact ⟨hu'.1, hu'.2.1, hu'.2.2⟩

/- Two of the three links are read back, the last one without a checksum. -/
example : (fileLines (urlsLst {} samplePackages .nil)).map readUrlMd5 =
    [("https://ftp.gnu.org/gnu/m4/m4-1.4.19.tar.xz".toList,
        "0d90823e1426f1da2fd872df0311298d".toList),
      ("https://example.org/eudev-3.2.10.tar.gz".toList, [])] := by
  decide +kernel

end HaoosLfs.Sources
