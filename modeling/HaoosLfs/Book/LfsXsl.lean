import HaoosLfs.Book.Xml

/-!
# The build scripts of the LFS book (`lfs.xsl:94-138`)

`lfs.xsl` writes one script for each selected section of the selected chapters,
named `<dir>/<order>-<filename>`. `build_Makefile.sh` finds the scripts again and
chains them in the order of `sort -n`; on absolute paths this is the byte order
of whole lines.
-/

namespace HaoosLfs.Book
open Text

/-! ### Selection -/

def selectedChapterIds : List Text :=
  ["chapter-final-preps".toList, "chapter-cross-tools".toList,
    "chapter-temporary-tools".toList, "chapter-chroot-temporary-tools".toList,
    "chapter-building-system".toList, "chapter-config".toList, "chapter-bootscripts".toList,
    "chapter-bootable".toList]

def selectedChapters (book : Xml) : List Node :=
  (descendant "chapter" book).filter fun c =>
    (c.1.attr "id").any fun i => decide (i ∈ selectedChapterIds)

/-- `not(@role) or @role != 'nodump'` -/
def isDumped (screen : Node) : Bool := screen.1.attr "role" ≠ some "nodump".toList

/-- `.//screen[...]/userinput[not(starts-with(string(),'chroot'))]` -/
def hasCommands (sect1 : Node) : Bool :=
  (descendant "screen" sect1.2).any fun sc =>
    isDumped sc && (child "userinput" sc.2).any fun u =>
      !"chroot".toList.isPrefixOf (stringValue u.2)

def selectedSections (chapter : Node) : List Node := (child "sect1" chapter.2).filter hasCommands

/-! ### Names -/

def dirname (chapter : Node) : Text :=
  let piDirValue := substringAfter (piValue "dbhtml" chapter.2) "dir=".toList
  let quoteDir := piDirValue.take 1
  substringBefore (piDirValue.drop 1) quoteDir

def filename (sect1 : Node) : Text :=
  let piFileValue := substringAfter (piValue "dbhtml" sect1.2) "filename=".toList
  substringBefore (piFileValue.drop 1) ".html".toList

/-- The position, with a zero before it when it is one character long. -/
def padded (position : ℕ) : Text :=
  (if (decimal position).length = 1 then ['0'] else []) ++ decimal position

def order (chapNum position : ℕ) : Text := decimal chapNum ++ padded position

structure Script where
  dir : Text
  file : Text
  deriving DecidableEq

def Script.path (root : Text) (s : Script) : Text := root ++ (s.dir ++ '/' :: s.file)

/-- The scripts of the sections of one chapter, numbered by `position()`. -/
def chapterScripts (chapter : Node) (chapNum : ℕ) : List Script :=
  ((selectedSections chapter).zipIdx 1).map fun s =>
    ⟨dirname chapter, order chapNum s.2 ++ '-' :: filename s.1⟩

/-- All scripts in book order; `chap-num` is `position()+3`. -/
def lfsScripts (book : Xml) : List Script :=
  ((selectedChapters book).zipIdx 1).flatMap fun c => chapterScripts c.1 (c.2 + 3)

/-! ### The order of the chain -/

def chapterDirs : List Text :=
  ["chapter04".toList, "chapter05".toList, "chapter06".toList, "chapter07".toList,
    "chapter08".toList, "chapter09".toList, "chapter10".toList]

theorem chapterDirs_sorted : chapterDirs.Pairwise (· < ·) := by decide

theorem chapterDirs_length : ∀ d ∈ chapterDirs, d.length = 9 := by decide

theorem padded_of_lt_hundred {n : ℕ} (h : n < 100) :
    padded n = [(n / 10).digitChar, (n % 10).digitChar] := by
  by_cases h10 : n < 10
  · have hd : n / 10 = 0 := by omega
    have hm : n % 10 = n := by omega
    rw [padded, if_pos (length_decimal_eq_one.mpr h10), decimal_of_lt_ten h10, hd, hm]
    rfl
  · rw [padded, if_neg (fun h1 => h10 (length_decimal_eq_one.mp h1)),
      decimal_of_lt_hundred (by omega) h]
    rfl

theorem padded_lt {p q : ℕ} (hpq : p < q) (hq : q < 100) : padded p < padded q := by
  rw [padded_of_lt_hundred (by omega), padded_of_lt_hundred hq, List.cons_lt_cons_iff]
  by_cases h : p / 10 = q / 10
  · refine .inr ⟨by rw [h], List.cons_lt_cons_iff.mpr (.inl ?_)⟩
    exact digitChar_lt (by omega) (by omega)
  · exact .inl (digitChar_lt (by omega) (by omega))

theorem path_lt_of_position (root dir x y : Text) (n : ℕ) {a b : Text}
    (hlen : a.length = b.length) (hab : a < b) :
    Script.path root ⟨dir, decimal n ++ a ++ x⟩ < Script.path root ⟨dir, decimal n ++ b ++ y⟩ := by
  have h := append_lt_append x y hlen hab
  have hfile : '/' :: (decimal n ++ (a ++ x)) < '/' :: (decimal n ++ (b ++ y)) :=
    List.cons_lt_cons_iff.mpr (.inr ⟨rfl, List.append_left_lt h⟩)
  simp only [Script.path, List.append_assoc]
  exact List.append_left_lt (List.append_left_lt hfile)

theorem path_lt_of_dir (root : Text) {s t : Script} (hlen : s.dir.length = t.dir.length)
    (hdir : s.dir < t.dir) : s.path root < t.path root := by
  unfold Script.path
  exact List.append_left_lt (append_lt_append _ _ hlen hdir)

theorem dir_of_mem_chapterScripts {chapter : Node} {n : ℕ} {s : Script}
    (hs : s ∈ chapterScripts chapter n) : s.dir = dirname chapter := by
  obtain ⟨x, -, rfl⟩ := List.mem_map.mp hs
  rfl

theorem chapterScripts_sorted_iff (root : Text) (chapter : Node) (n : ℕ) :
    (chapterScripts chapter n).Pairwise (fun s t => s.path root ≤ t.path root) ↔
      (selectedSections chapter).length ≤ 99 := by
  have hidx : ((selectedSections chapter).zipIdx 1).Pairwise (fun s t => s.2 < t.2) := by
    rw [← List.pairwise_map (f := Prod.snd) (R := (· < ·)), List.zipIdx_map_snd]
    exact List.pairwise_lt_range' 1 (by omega)
  rw [chapterScripts, List.pairwise_map]
  constructor
  · -- positions 11 and 100 stand in the wrong order
    intro h
    by_contra hlen
    have h10 : 10 < (selectedSections chapter).length := by omega
    have h99 : 99 < (selectedSections chapter).length := by omega
    have hget := List.pairwise_iff_getElem.mp h 10 99 (by simpa using h10) (by simpa using h99)
      (by omega)
    simp only [List.getElem_zipIdx] at hget
    refine absurd hget (not_le_of_gt ?_)
    have h1 := path_lt_of_position root (dirname chapter)
      ('0' :: '-' :: filename (selectedSections chapter)[99])
      ('-' :: filename (selectedSections chapter)[10]) n
      (a := ['1', '0']) (b := ['1', '1']) rfl (by decide)
    have h100 : padded 100 = ['1', '0'] ++ ['0'] := by decide
    have h11 : padded 11 = ['1', '1'] := by decide
    simp only [order, Nat.reduceAdd, h100, h11, List.append_assoc, List.singleton_append] at h1 ⊢
    exact h1
  · intro hlen
    apply hidx.imp_of_mem
    intro s t _ ht hst
    have hlt : t.2 < 100 := by
      have := (List.mem_zipIdx ht).2.1
      omega
    have hlen2 : (padded s.2).length = (padded t.2).length := by
      rw [padded_of_lt_hundred (by omega), padded_of_lt_hundred hlt]
      rfl
    exact le_of_lt (path_lt_of_position root _ _ _ n hlen2 (padded_lt hst hlt))

/-- Chapter directories have one length, so scripts of different chapters compare
like their directories; what is left is each chapter by itself. -/
theorem lfsScripts_sorted_iff (root : Text) {book : Xml}
    (hdirs : ((selectedChapters book).map dirname).Sublist chapterDirs) :
    (lfsScripts book).Pairwise (fun s t => s.path root ≤ t.path root) ↔
      ∀ chapter ∈ selectedChapters book, (selectedSections chapter).length ≤ 99 := by
  have hlt : ((selectedChapters book).zipIdx 1).Pairwise
      (fun c e => dirname c.1 < dirname e.1) := by
    have h1 := chapterDirs_sorted.sublist hdirs
    rw [← List.zipIdx_map_fst 1 (selectedChapters book), List.map_map, List.pairwise_map] at h1
    exact h1
  have hlen : ∀ c ∈ selectedChapters book, (dirname c).length = 9 := fun c hc =>
    chapterDirs_length _ (hdirs.subset (List.mem_map_of_mem hc))
  have hcross : ((selectedChapters book).zipIdx 1).Pairwise (fun c e =>
      ∀ s ∈ chapterScripts c.1 (c.2 + 3), ∀ t ∈ chapterScripts e.1 (e.2 + 3),
        s.path root ≤ t.path root) := by
    apply hlt.imp_of_mem
    intro c e hc he hce s hs t ht
    have hsd := dir_of_mem_chapterScripts hs
    have htd := dir_of_mem_chapterScripts ht
    have hcl := hlen c.1 (List.fst_mem_of_mem_zipIdx hc)
    have hel := hlen e.1 (List.fst_mem_of_mem_zipIdx he)
    exact le_of_lt (path_lt_of_dir root (by rw [hsd, htd, hcl, hel]) (by rw [hsd, htd]; exact hce))
  rw [lfsScripts, List.pairwise_flatMap, and_iff_left hcross]
  constructor
  · intro h chapter hc
    obtain ⟨i, hi⟩ : ∃ i, (chapter, i) ∈ (selectedChapters book).zipIdx 1 := by
      rw [← List.zipIdx_map_fst 1 (selectedChapters book)] at hc
      obtain ⟨⟨c, i⟩, hm, rfl⟩ := List.mem_map.mp hc
      exact ⟨i, hm⟩
    exact (chapterScripts_sorted_iff root chapter (i + 3)).mp (h (chapter, i) hi)
  · intro h c hc
    exact (chapterScripts_sorted_iff root c.1 (c.2 + 3)).mpr
      (h c.1 (List.fst_mem_of_mem_zipIdx hc))

/-- The sorted scripts are in book order exactly when no selected chapter has
more than 99 selected sections. -/
theorem sorted_scripts_iff (root : Text) (book : Xml)
    (hdirs : ((selectedChapters book).map dirname).Sublist chapterDirs) {found : List Text}
    (hfound : found.Perm ((lfsScripts book).map (Script.path root))) :
    sortLines found = (lfsScripts book).map (Script.path root) ↔
      ∀ chapter ∈ selectedChapters book, (selectedSections chapter).length ≤ 99 := by
  rw [sortLines_eq_iff hfound, List.pairwise_map]
  exact lfsScripts_sorted_iff root hdirs

/-! ### A small and a large book -/

def glibcSection (rest : Xml) : Xml :=
  .node (.element "sect1" [])
    (.node (.pi "dbhtml" "filename=\"glibc.html\"".toList) .nil
      (.node (.element "screen" [])
        (.node (.element "userinput" []) (.node (.text "make".toList) .nil .nil) .nil) .nil)) rest

def chapterOf (id dir : String) (sections : ℕ) (rest : Xml) : Xml :=
  .node (.element "chapter" [("id", id.toList)])
    (.node (.pi "dbhtml" ("dir=\"".toList ++ dir.toList ++ "\"".toList)) .nil
      (glibcSection^[sections] .nil)) rest

def systemBook (n : ℕ) : Xml :=
  .node (.element "book" [])
    (chapterOf "chapter-final-preps" "chapter04" 2 <|
      chapterOf "chapter-cross-tools" "chapter05" 1 <|
      chapterOf "chapter-temporary-tools" "chapter06" 1 <|
      chapterOf "chapter-chroot-temporary-tools" "chapter07" 1 <|
      chapterOf "chapter-building-system" "chapter08" n .nil) .nil

theorem sorted_systemBook_two :
    sortLines ((lfsScripts (systemBook 2)).reverse.map (Script.path "/lfs-commands/".toList)) =
      (lfsScripts (systemBook 2)).map (Script.path "/lfs-commands/".toList) :=
  (sorted_scripts_iff _ _ (by decide) ((List.reverse_perm _).map _)).mpr (by decide)

theorem not_sorted_systemBook_hundred :
    ((selectedChapters (systemBook 100)).map dirname).Sublist chapterDirs ∧
      sortLines ((lfsScripts (systemBook 100)).map (Script.path "/lfs-commands/".toList)) ≠
        (lfsScripts (systemBook 100)).map (Script.path "/lfs-commands/".toList) := by
  have hdirs : ((selectedChapters (systemBook 100)).map dirname).Sublist chapterDirs := by
    decide +kernel
  refine ⟨hdirs, fun h => ?_⟩
  rw [sortLines_eq_iff (List.Perm.refl _), List.pairwise_map, lfsScripts_sorted_iff _ hdirs] at h
  revert h
  decide +kernel

end HaoosLfs.Book
