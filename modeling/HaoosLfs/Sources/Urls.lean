import HaoosLfs.Lib.ShellExpand
import HaoosLfs.Sources.Download

/-!
# The name of a source archive (`urls.xsl:28-52`, `lfs.xsl:1150-1165`)

`urls.xsl` writes the url of a download up to its question mark, and the download
script takes the base name of that. The build scripts take the last component of
the whole url, and have it after `PACKAGE=` without quotes.
-/

namespace HaoosLfs.Sources
open Text ShellWords

/-! ### urls.xsl -/

def extensions : List Text :=
  [".bz2".toList, ".tar.gz".toList, ".tgz".toList, ".patch".toList, ".xz".toList, ".lzma".toList]

/-- The test of the template `ulink`, the condition `pdf` apart. -/
def isPackageUrl (url : Text) : Bool := extensions.any fun e => contains url e

def upstreamUrl (url : Text) : Text :=
  if contains url ['?'] then substringBefore url ['?'] else url

/-- The line for a link; `pdf` when one of its ancestors has this condition. -/
def ulink (pdf : Bool) (url md5 : Text) : Option Text :=
  if isPackageUrl url && !pdf then some (upstreamUrl url ++ ' ' :: md5) else none

/-! ### lfs.xsl -/

/-- The template `basename`; each call drops at least one character. -/
def basenameCall : ℕ → Text → Text
  | 0, path => path
  | fuel + 1, path =>
    if contains path ['/'] then
      if substringAfter path ['/'] ≠ [] then basenameCall fuel (substringAfter path ['/'])
      else substringBefore path ['/']
    else path

/-- `PACKAGE`, for the text of the section's address. -/
def packageName (address : Text) : Text := basenameCall address.length address

theorem basenameCall_fuel {m n : ℕ} {path : Text} (hm : path.length ≤ m) (hn : path.length ≤ n) :
    basenameCall m path = basenameCall n path := by
  have hnil : ∀ k, basenameCall k [] = [] := by
    intro k
    cases k <;> rfl
  induction m generalizing n path with
  | zero =>
    rw [List.length_eq_zero_iff.mp (Nat.le_zero.mp hm), hnil, hnil]
  | succ m ih =>
    cases n with
    | zero => rw [List.length_eq_zero_iff.mp (Nat.le_zero.mp hn), hnil, hnil]
    | succ n =>
      rw [basenameCall, basenameCall]
      by_cases hslash : '/' ∈ path
      · obtain ⟨a, b, rfl, ha⟩ := List.eq_append_cons_of_mem hslash
        rw [(substring_singleton ha b).2]
        simp only [List.length_append, List.length_cons] at hm hn
        rw [@ih n b (by omega) (by omega)]
      · rw [if_neg (by rwa [contains_singleton]), if_neg (by rwa [contains_singleton])]

theorem packageName_plain {path : Text} (h : '/' ∉ path) : packageName path = path := by
  unfold packageName
  cases hl : path.length with
  | zero => rfl
  | succ n => rw [basenameCall, if_neg (by rwa [contains_singleton])]

theorem packageName_slash {a : Text} (ha : '/' ∉ a) (b : Text) :
    packageName (a ++ '/' :: b) = if b = [] then a else packageName b := by
  have hlen : (a ++ '/' :: b).length = (a.length + b.length) + 1 := by
    simp only [List.length_append, List.length_cons]
    omega
  have hslash : contains (a ++ '/' :: b) ['/'] := contains_singleton.mpr (by simp)
  unfold packageName
  rw [hlen, basenameCall, if_pos hslash, (substring_singleton ha b).1, (substring_singleton ha b).2]
  by_cases hb : b = []
  · rw [if_pos hb, if_neg (not_not.mpr hb)]
  · rw [if_neg hb, if_pos hb]
    exact basenameCall_fuel (by omega) le_rfl

theorem packageName_append (x : Text) {y : Text} (hy : y ≠ []) :
    packageName (x ++ '/' :: y) = packageName y := by
  induction hn : x.length using Nat.strong_induction_on generalizing x with
  | _ n ih =>
    by_cases hslash : '/' ∈ x
    · obtain ⟨a, b, rfl, ha⟩ := List.eq_append_cons_of_mem hslash
      have hlt : b.length < n := by
        rw [← hn, List.length_append, List.length_cons]
        omega
      rw [List.append_assoc, List.cons_append, packageName_slash ha, if_neg (by simp),
        ih b.length hlt b rfl]
    · rw [packageName_slash hslash, if_neg hy]

/-! ### Both names of a url -/

theorem packageName_slashes (k : ℕ) : packageName (List.replicate (k + 1) '/') = [] := by
  induction k with
  | zero => rfl
  | succ k ih =>
    rw [List.replicate_succ, ← List.nil_append ('/' :: _), packageName_slash (by simp),
      if_neg (by simp), ih]

theorem packageName_parts {x y : Text} {k : ℕ} (hy : y ≠ []) (hslash : '/' ∉ y)
    (hx : x = [] ∨ ∃ x', x = x' ++ ['/']) :
    packageName (x ++ (y ++ List.replicate k '/')) = if k ≤ 1 then y else [] := by
  have hx' : packageName (x ++ (y ++ List.replicate k '/')) =
      packageName (y ++ List.replicate k '/') := by
    rcases hx with rfl | ⟨x', rfl⟩
    · rfl
    · rw [List.append_assoc, List.singleton_append, packageName_append x' (by simp [hy])]
  rw [hx']
  match k with
  | 0 => rw [List.replicate_zero, List.append_nil, packageName_plain hslash, if_pos (by omega)]
  | 1 => rw [List.replicate_one, packageName_slash hslash, if_pos rfl, if_pos le_rfl]
  | k + 2 =>
    rw [List.replicate_succ, packageName_slash hslash, if_neg (by simp), packageName_slashes,
      if_neg (by omega)]

/-- The path ends in the component `c` and `k` slashes. -/
def EndsIn (path c : Text) (k : ℕ) : Prop :=
  (c ≠ [] ∧ '/' ∉ c) ∧
    ∃ x, path = x ++ (c ++ List.replicate k '/') ∧ (x = [] ∨ ∃ x', x = x' ++ ['/'])

theorem EndsIn.packageName {path c : Text} {k : ℕ} (h : EndsIn path c k) :
    packageName path = if k ≤ 1 then c else [] := by
  obtain ⟨⟨hne, hslash⟩, x, rfl, hx⟩ := h
  exact packageName_parts hne hslash hx

theorem EndsIn.basename {path c : Text} {k : ℕ} (h : EndsIn path c k) : basename path = c := by
  obtain ⟨⟨hne, hslash⟩, x, rfl, hx⟩ := h
  exact basename_parts hne hslash hx

theorem exists_endsIn {path : Text} (h : ∃ c ∈ path, c ≠ '/') : ∃ c k, EndsIn path c k := by
  obtain ⟨x, y, k, hpath, hy, hslash, hx⟩ := exists_parts h
  exact ⟨y, k, ⟨hy, hslash⟩, x, hpath, hx⟩

theorem basenameArg_eq_iff {path name : Text} (hname : name ≠ []) (hslash : '/' ∉ name)
    (hdash : name ≠ ['-']) :
    basenameArg path = name ↔ path.head? ≠ some '-' ∧ ∃ k, EndsIn path name k := by
  unfold basenameArg
  by_cases hhead : path.head? = some '-'
  · refine iff_of_false (fun h => ?_) fun h => h.1 hhead
    by_cases hpath : path = ['-']
    · rw [hpath] at h
      exact hdash h.symm
    · rw [if_pos ⟨hhead, hpath⟩] at h
      exact hname h.symm
  · rw [if_neg fun h => hhead h.1]
    refine ⟨fun h => ⟨hhead, ?_⟩, fun h => h.2.choose_spec.basename⟩
    by_cases hchar : ∃ c ∈ path, c ≠ '/'
    · obtain ⟨c, k, hc⟩ := exists_endsIn hchar
      rw [← h, hc.basename]
      exact ⟨k, hc⟩
    · -- only slashes, of which `basename` leaves one
      push Not at hchar
      have hall := List.eq_replicate_iff.mpr ⟨rfl, hchar⟩
      rw [hall] at h
      cases hlen : path.length with
      | zero =>
        rw [hlen] at h
        exact absurd h.symm hname
      | succ k =>
        rw [hlen, basename_slashes] at h
        exact absurd (by rw [← h]; exact List.mem_cons_self) hslash

theorem packageName_eq_iff {path name : Text} (hname : name ≠ []) :
    packageName path = name ↔ ∃ k ≤ 1, EndsIn path name k := by
  constructor
  · intro h
    by_cases hchar : ∃ c ∈ path, c ≠ '/'
    · obtain ⟨c, k, hc⟩ := exists_endsIn hchar
      rw [hc.packageName] at h
      split_ifs at h with hk
      · exact ⟨k, hk, h ▸ hc⟩
      · exact absurd h.symm hname
    · push Not at hchar
      rw [List.eq_replicate_iff.mpr ⟨rfl, hchar⟩] at h
      cases hlen : path.length with
      | zero =>
        rw [hlen] at h
        exact absurd h.symm hname
      | succ k =>
        rw [hlen, packageName_slashes] at h
        exact absurd h.symm hname
  · rintro ⟨k, hk, hc⟩
    rw [hc.packageName, if_pos hk]

/-! ### urls.lst -/

theorem readUrlMd5_url {v : Text} (hv : v ≠ []) (hblank : ' ' ∉ v) (md5 : Text) :
    (readUrlMd5 (v ++ ' ' :: md5)).1 = v := by
  have hall : ∀ c ∈ v, (decide (c ≠ ' ')) = true := by
    intro c hc
    rw [decide_eq_true_eq]
    rintro rfl
    exact hblank hc
  have hhead : (v ++ ' ' :: md5).dropWhile (· = ' ') = v ++ ' ' :: md5 := by
    cases v with
    | nil => exact absurd rfl hv
    | cons c v => exact List.dropWhile_cons_of_neg (by simpa using hall c List.mem_cons_self)
  -- blanks at the end are cut off, and `v` is left in front
  have hrest : ∃ t : Text, ((v ++ ' ' :: md5).reverse.dropWhile (· = ' ')).reverse = v ++ t ∧
      t.head?.all (· = ' ') := by
    rw [List.reverse_append, List.dropWhile_append]
    split_ifs with hempty
    · refine ⟨[], ?_, rfl⟩
      rw [List.append_nil]
      cases hr : v.reverse with
      | nil => exact absurd (List.reverse_eq_nil_iff.mp hr) hv
      | cons c cs =>
        have hc : decide (c ≠ ' ') = true :=
          hall c (List.mem_reverse.mp (by rw [hr]; exact List.mem_cons_self))
        rw [List.dropWhile_cons_of_neg (by simpa using hc), ← hr, List.reverse_reverse]
    · refine ⟨((' ' :: md5).reverse.dropWhile (· = ' ')).reverse, ?_, ?_⟩
      · rw [List.reverse_append, List.reverse_reverse]
      · have hpre : ((' ' :: md5).reverse.dropWhile (· = ' ')).reverse <+: ' ' :: md5 := by
          rw [← List.reverse_suffix, List.reverse_reverse]
          exact List.dropWhile_suffix _
        cases ht : ((' ' :: md5).reverse.dropWhile (· = ' ')).reverse with
        | nil => rfl
        | cons c cs =>
          rw [ht] at hpre
          obtain ⟨rest, hrest⟩ := hpre
          obtain ⟨rfl, -⟩ := List.cons.inj hrest
          rfl
  obtain ⟨t, ht, hspace⟩ := hrest
  unfold readUrlMd5
  dsimp only
  rw [hhead, ht, List.takeWhile_append_of_pos hall]
  cases t with
  | nil => simp
  | cons c t =>
    rw [List.takeWhile_cons_of_neg (by simpa using hspace), List.append_nil]

/-! ### The archive that a script unpacks -/

/-- The archive that `tar` opens for `-f $PACKAGE`: `-` is the standard input, and what comes
before a colon is the name of a host. -/
def archiveOperand (e : Pathnames) (package : Text) : Option Text :=
  match e.unquoted package with
  | [w] => if w = ['-'] ∨ ':' ∈ w.takeWhile (· ≠ '/') then none else some w
  | _ => none

/-- After `PACKAGE=name` this is the archive, in all directories. -/
def Unpacks (name : Text) : Prop :=
  ∀ e : Pathnames, (assigned name).bind (archiveOperand e) = some name

/-- A name that the assignment, the shell and `tar` take as it stands. -/
def IsArchiveName (name : Text) : Prop :=
  isLiteral name ∧ hasPattern name = false ∧ name ≠ ['-'] ∧ ':' ∉ name

instance (name : Text) : Decidable (IsArchiveName name) := inferInstanceAs (Decidable (_ ∧ _))

theorem not_isIfs_of_isLiteral {tilde : Bool} {s : Text} (h : literalFrom tilde s) :
    ∀ c ∈ s, isIfs c = false := by
  induction s generalizing tilde with
  | nil => exact List.forall_mem_nil _
  | cons c s ih =>
    simp only [literalFrom, Bool.and_eq_true] at h
    refine List.forall_mem_cons.mpr ⟨Bool.eq_false_iff.mpr fun hc => ?_, ih h.2⟩
    have hends : endsWord c := by
      simp only [isIfs, Bool.or_eq_true, decide_eq_true_eq] at hc
      rcases hc with (rfl | rfl) | rfl <;> rfl
    simp [isSpecial, hends] at h

theorem archiveOperand_eq_iff {e : Pathnames} {package name : Text} :
    archiveOperand e package = some name ↔
      e.unquoted package = [name] ∧ name ≠ ['-'] ∧ ':' ∉ name.takeWhile (· ≠ '/') := by
  unfold archiveOperand
  constructor
  · intro h
    split at h
    · next w hw =>
      split_ifs at h with hno
      obtain rfl := Option.some.inj h
      exact ⟨hw, not_or.mp hno⟩
    · cases h
  · rintro ⟨hw, hdash, hhost⟩
    rw [hw]
    exact if_neg (not_or.mpr ⟨hdash, hhost⟩)

theorem unpacks_iff {name : Text} (hne : name ≠ []) (hslash : '/' ∉ name) :
    Unpacks name ↔ IsArchiveName name := by
  have htake : name.takeWhile (· ≠ '/') = name := by
    rw [List.takeWhile_eq_self_iff]
    intro c hc
    rw [decide_eq_true_eq]
    rintro rfl
    exact hslash hc
  have hname : ∀ e : Pathnames, (assigned name).bind (archiveOperand e) = some name ↔
      ∃ v, assigned name = some v ∧ e.unquoted v = [name] ∧ name ≠ ['-'] ∧ ':' ∉ name := by
    intro e
    simp only [Option.bind_eq_some_iff, archiveOperand_eq_iff, htake]
  unfold Unpacks IsArchiveName
  simp only [hname]
  constructor
  · intro h
    obtain ⟨v, hv, hwords, hdash, hhost⟩ := h noMatches
    -- the value is at most as long as the text, which is one of its words
    rw [noMatches_unquoted] at hwords
    have hmem : name ∈ words v := by
      rw [hwords]
      exact List.mem_singleton_self name
    obtain rfl := (of_mem_words hmem).2.eq_of_length_le (length_readValue hv)
    refine ⟨assigned_eq_self_iff.mp hv, Bool.eq_false_iff.mpr fun hp => ?_, hdash, hhost⟩
    obtain ⟨w, hw, hlong, -⟩ := h (matchesOne name (name ++ ['a']) hp)
    obtain rfl := Option.some.inj (hv.symm.trans hw)
    have hexpand : (matchesOne name (name ++ ['a']) hp).unquoted name = [name ++ ['a']] := by
      rw [Pathnames.unquoted, hwords, List.flatMap_singleton]
      exact if_pos rfl
    rw [hexpand] at hlong
    have hlen := congrArg List.length (List.cons.inj hlong).1
    simp at hlen
  · rintro ⟨hliteral, hpattern, hdash, hhost⟩ e
    exact ⟨name, assigned_eq_self_iff.mpr hliteral,
      e.unquoted_plain hne (not_isIfs_of_isLiteral hliteral) hpattern, hdash, hhost⟩

/-- Whatever checksum the book gives, the archive is stored under the name that `PACKAGE=` is
followed by, and this archive is unpacked. -/
def SameName (url : Text) : Prop :=
  ∀ md5 : Text, '\n' ∉ md5 → ∃ line, ulink false url md5 = some line ∧
    fileNameOf line = packageName url ∧ Unpacks (packageName url)

theorem upstreamUrl_query {v : Text} (h : '?' ∉ v) (q : Text) :
    upstreamUrl (v ++ '?' :: q) = v := by
  unfold upstreamUrl
  rw [if_pos (contains_singleton.mpr (by simp)), (substring_singleton h q).1]

theorem upstreamUrl_plain {url : Text} (h : '?' ∉ url) : upstreamUrl url = url := by
  unfold upstreamUrl
  rw [if_neg (by rwa [contains_singleton])]

theorem not_unpacks_nil : ¬ Unpacks [] := by
  intro h
  have hnil := h noMatches
  revert hnil
  decide

theorem sameName_iff_upstream {url : Text} (hblank : ' ' ∉ upstreamUrl url) :
    SameName url ↔ isPackageUrl url ∧ upstreamUrl url ≠ [] ∧
      basenameArg (upstreamUrl url) = packageName url ∧ Unpacks (packageName url) := by
  unfold SameName
  constructor
  · intro h
    have hline : ∀ md5 : Text, '\n' ∉ md5 → isPackageUrl url ∧
        fileNameOf (upstreamUrl url ++ ' ' :: md5) = packageName url := by
      intro md5 hmd5
      obtain ⟨line, hline, hname, -⟩ := h md5 hmd5
      unfold ulink at hline
      split_ifs at hline with hpkg
      obtain rfl := Option.some.inj hline
      rw [Bool.and_eq_true] at hpkg
      exact ⟨hpkg.1, hname⟩
    have hne : upstreamUrl url ≠ [] := by
      intro hnil
      -- then the checksum is read as the url
      have ha := (hline ['a'] (by decide)).2
      have hb := (hline ['b'] (by decide)).2
      rw [hnil] at ha hb
      exact absurd (ha.trans hb.symm) (by decide)
    obtain ⟨-, -, -, hunpacks⟩ := h [] (by simp)
    refine ⟨(hline [] (by simp)).1, hne, ?_, hunpacks⟩
    rw [← (hline [] (by simp)).2, fileNameOf, readUrlMd5_url hne hblank]
  · rintro ⟨hpkg, hne, hname, hunpacks⟩ md5 hmd5
    refine ⟨upstreamUrl url ++ ' ' :: md5, by simp [ulink, hpkg], ?_, hunpacks⟩
    rw [fileNameOf, readUrlMd5_url hne hblank, hname]

def urlPath (url : Text) : Text := url.takeWhile (· ≠ '?')

/-- The query has a slash, and after the last one, but for one at the very end, this component. -/
def QueryEndsIn (url c : Text) : Prop :=
  ∃ x j, url = urlPath url ++ '?' :: (x ++ '/' :: (c ++ List.replicate j '/')) ∧ j ≤ 1

theorem urlPath_plain {url : Text} (h : '?' ∉ url) : urlPath url = url := by
  refine List.takeWhile_eq_self_iff.mpr fun c hc => decide_eq_true ?_
  rintro rfl
  exact h hc

theorem urlPath_query {v : Text} (h : '?' ∉ v) (q : Text) : urlPath (v ++ '?' :: q) = v := by
  unfold urlPath
  rw [List.takeWhile_append_of_pos]
  · simp
  · intro c hc
    rw [decide_eq_true_eq]
    rintro rfl
    exact h hc

theorem not_mem_urlPath (url : Text) : '?' ∉ urlPath url := by
  intro h
  have hmark := List.mem_takeWhile_imp h
  simp at hmark

theorem upstreamUrl_eq (url : Text) : upstreamUrl url = urlPath url := by
  by_cases hq : '?' ∈ url
  · obtain ⟨v, q, rfl, hv⟩ := List.eq_append_cons_of_mem hq
    rw [upstreamUrl_query hv, urlPath_query hv]
  · rw [upstreamUrl_plain hq, urlPath_plain hq]

theorem head?_urlPath (url : Text) : (urlPath url).head? = some '-' ↔ url.head? = some '-' := by
  cases url with
  | nil => exact Iff.rfl
  | cons c s =>
    by_cases hc : c = '?'
    · simp [urlPath, hc]
    · simp [urlPath, hc]

theorem queryEndsIn_iff {url c : Text} (hq : '?' ∈ url) (hne : c ≠ []) (hslash : '/' ∉ c)
    (hmark : '?' ∉ c) : QueryEndsIn url c ↔ ∃ j ≤ 1, EndsIn url c j := by
  obtain ⟨v, q, rfl, hv⟩ := List.eq_append_cons_of_mem hq
  unfold QueryEndsIn
  rw [urlPath_query hv]
  constructor
  · rintro ⟨x, j, hurl, hj⟩
    refine ⟨j, hj, ⟨hne, hslash⟩, v ++ '?' :: (x ++ ['/']), ?_, .inr ⟨v ++ '?' :: x, by simp⟩⟩
    rw [hurl]
    simp
  · rintro ⟨j, hj, -, x, hurl, hx⟩
    have hno : '?' ∉ c ++ List.replicate j '/' := by
      rw [List.mem_append, not_or]
      exact ⟨hmark, fun h => absurd (List.eq_of_mem_replicate h) (by decide)⟩
    rcases List.append_eq_append_iff.mp hurl with ⟨a, rfl, ha⟩ | ⟨a, -, ha⟩
    · cases a with
      | nil => exact absurd (by rw [← List.nil_append (c ++ _), ← ha]; exact List.mem_cons_self) hno
      | cons b r =>
        obtain ⟨rfl, rfl⟩ := List.cons.inj ha
        rcases hx with hx | ⟨x', hx⟩
        · simp at hx
        · -- what the component follows is a slash, not the question mark
          have hlast : ('?' :: r).getLast? = some '/' := by
            have hboth := congrArg List.getLast? hx
            rwa [List.getLast?_append_of_ne_nil _ (List.cons_ne_nil _ _),
              List.getLast?_append_of_ne_nil _ (List.cons_ne_nil _ _)] at hboth
          rcases List.eq_nil_or_concat r with rfl | ⟨r', d, rfl⟩
          · exact absurd hlast (by decide)
          · rw [List.concat_eq_append, ← List.cons_append,
              List.getLast?_append_of_ne_nil _ (List.cons_ne_nil _ _)] at hlast
            obtain rfl := Option.some.inj hlast
            exact ⟨r', j, by simp, hj⟩
    · exact absurd (by rw [ha]; simp) hno

/-- For a url without blanks, the archive is stored under the name that is unpacked exactly
when the link is a download that does not begin with a hyphen, the last component of its path
is a name that the shell and `tar` take as it stands, and without a query at most one slash
follows it, with a query the query ends in this component too. -/
theorem same_name_iff {url : Text} (hblank : ∀ c ∈ url, isSpace c = false) :
    SameName url ↔ isPackageUrl url ∧ url.head? ≠ some '-' ∧
      ∃ c k, EndsIn (urlPath url) c k ∧ IsArchiveName c ∧
        (if '?' ∈ url then QueryEndsIn url c else k ≤ 1) := by
  have hspace : ' ' ∉ urlPath url := by
    intro h
    have hno := hblank ' ' (List.takeWhile_subset _ h)
    revert hno
    decide
  have hmark : ∀ {c : Text} {k : ℕ}, EndsIn (urlPath url) c k → '?' ∉ c := by
    rintro c k ⟨-, x, hpath, -⟩ h
    apply not_mem_urlPath url
    rw [hpath]
    simp [h]
  have hdash : (urlPath url).head? ≠ some '-' ↔ url.head? ≠ some '-' :=
    not_congr (head?_urlPath url)
  rw [sameName_iff_upstream (by rw [upstreamUrl_eq]; exact hspace), upstreamUrl_eq, ← hdash]
  refine and_congr_right fun _ => ⟨?_, ?_⟩
  · rintro ⟨-, hname, hunpacks⟩
    have hne : packageName url ≠ [] := fun h => not_unpacks_nil (h ▸ hunpacks)
    obtain ⟨j, hj, hend⟩ := (packageName_eq_iff hne).mp rfl
    have harchive := (unpacks_iff hne hend.1.2).mp hunpacks
    obtain ⟨hhead, k, hpath⟩ := (basenameArg_eq_iff hne hend.1.2 harchive.2.2.1).mp hname
    refine ⟨hhead, packageName url, ?_⟩
    by_cases hq : '?' ∈ url
    · exact ⟨k, hpath, harchive, by
        rw [if_pos hq, queryEndsIn_iff hq hne hend.1.2 (hmark hpath)]
        exact ⟨j, hj, hend⟩⟩
    · exact ⟨j, by rwa [urlPath_plain hq], harchive, by rwa [if_neg hq]⟩
  · rintro ⟨hhead, c, k, hpath, harchive, hquery⟩
    obtain ⟨hne, hslash⟩ := hpath.1
    have hname : packageName url = c := by
      rw [packageName_eq_iff hne]
      by_cases hq : '?' ∈ url
      · rw [if_pos hq] at hquery
        exact (queryEndsIn_iff hq hne hslash (hmark hpath)).mp hquery
      · rw [if_neg hq] at hquery
        rw [urlPath_plain hq] at hpath
        exact ⟨k, hquery, hpath⟩
    rw [hname]
    refine ⟨?_, (basenameArg_eq_iff hne hslash harchive.2.2.1).mpr ⟨hhead, k, hpath⟩,
      (unpacks_iff hne hslash).mpr harchive⟩
    intro hnil
    obtain ⟨-, x, hx, -⟩ := hpath
    rw [hnil] at hx
    simp [hne] at hx

/-- A url of the book, with the component that both names are. -/
theorem same_name_m4 : SameName "https://ftp.gnu.org/gnu/m4/m4-1.4.19.tar.xz".toList := by
  have hblank : ∀ c ∈ "https://ftp.gnu.org/gnu/m4/m4-1.4.19.tar.xz".toList, isSpace c = false := by
    have hall : "https://ftp.gnu.org/gnu/m4/m4-1.4.19.tar.xz".toList.all
        (fun c => !isSpace c) = true := by decide +kernel
    intro c hc
    simpa using List.all_eq_true.mp hall c hc
  refine (same_name_iff hblank).mpr ⟨by decide +kernel, by decide +kernel,
    "m4-1.4.19.tar.xz".toList, 0, ⟨⟨by decide, by decide⟩, "https://ftp.gnu.org/gnu/m4/".toList,
      by decide +kernel, .inr ⟨"https://ftp.gnu.org/gnu/m4".toList, by decide +kernel⟩⟩,
    ⟨by decide +kernel, by decide +kernel, by decide, by decide⟩, ?_⟩
  rw [if_neg (by decide +kernel)]
  exact Nat.zero_le 1

/-- The archive is stored as `m4.tar.gz`, and `m4.tar.gz?dl=1` is unpacked. -/
theorem not_same_name_query :
    "https://ftp.gnu.org/m4.tar.gz?dl=1".toList.any isSpace = false ∧
      isPackageUrl "https://ftp.gnu.org/m4.tar.gz?dl=1".toList ∧
      ¬ SameName "https://ftp.gnu.org/m4.tar.gz?dl=1".toList := by
  refine ⟨by decide +kernel, by decide +kernel, fun h => ?_⟩
  obtain ⟨line, hline, hname, -⟩ := h [] (by simp)
  have hsome : (ulink false "https://ftp.gnu.org/m4.tar.gz?dl=1".toList []).map fileNameOf =
      some (packageName "https://ftp.gnu.org/m4.tar.gz?dl=1".toList) := by
    rw [hline, Option.map_some, hname]
  revert hsome
  decide +kernel

end HaoosLfs.Sources
