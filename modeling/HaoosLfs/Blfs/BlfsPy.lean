import HaoosLfs.Blfs.CmdTxt
import HaoosLfs.Lib.Regex

/-!
# Generating the BLFS Makefile (`blfs.py`)

For each symbol that the configuration sets to `y` the program prints a block: a
rule head for every file whose name matches the symbol, the dependencies that
have a file, and the paths of the matching files.
-/

namespace HaoosLfs.Blfs
open Book Text Kconfiglib

/-! ### The program -/

/-- `r'[0-9]-\b{}\b$'.format(name)`: in a name only the dot is special. -/
def nameItem (c : Char) : Char → Bool := if c = '.' then (· ≠ '\n') else (· = c)

def namePattern (name : Text) : List Regex.Item :=
  .one Char.isDigit :: .one (· = '-') :: .boundary ::
    ((name.map nameItem).map .one ++ [.boundary, .eos])

def found (files : List Script) (name : Text) : List Script :=
  files.filter fun f => Regex.search (namePattern name) f.file

structure Block where
  name : Text
  heads : List Text
  prereqs : List Text
  recipe : List Script
  deriving DecidableEq

/-- `build_target`: a head for each matching file. -/
def buildTarget (files : List Script) (name : Text) : List Text :=
  (found files name).map fun _ => name

/-- `find_order_name` prints the name for each matching file. -/
def findOrderName (files : List Script) (name : Text) : List Text :=
  (found files name).map fun _ => name

/-- `build_dep_list`; `expr_items` is a set, whose order means nothing. -/
def buildDepList (files : List Script) (e : Expr) : List Text :=
  ((exprItems e).dedup.filter fun d => d ≠ "y".toList).flatMap (findOrderName files)

def buildRunCmd (files : List Script) (name : Text) : List Script := found files name

def buildMakefileNode (k : Kconfig) (files : List Script) (name : Text) : Block where
  name := name
  heads := buildTarget files name
  prereqs := buildDepList files (k.directDep name)
  recipe := buildRunCmd files name

/-- The lines of the configuration that contain `=y`, without it. -/
def targets (config : Text) : List Text :=
  ((readLines config).filter fun line => contains line "=y".toList).map fun line =>
    strip (replace line "=y".toList [])

structure Makefile where
  blocks : List Block
  chroot : List Text
  deriving DecidableEq

def built (k : Kconfig) (config : Text) : List Text :=
  (targets config).flatMap fun t => k.uniqueDefinedSyms.filter fun s => t = s

/-- The whole program; nothing when kconfiglib refuses `cmd.txt`. `files` are the
files below `blfs-commands`, in the order in which `os.walk` finds them. -/
def blfsPy (cmd config : Text) (files : List Script) : Option Makefile :=
  (load cmd).map fun k =>
    let blocks := (built k config).map (buildMakefileNode k files)
    ⟨blocks, blocks.flatMap Block.heads⟩

def blfsCommands : Text := "/mnt/build_dir/jhalfs/blfs-commands/".toList

/-- What is printed for a block: the names with their colons, the dependencies, and
the paths as they are seen inside the chroot. -/
def Block.text (b : Block) : Text :=
  b.heads.flatMap (fun h => h ++ " :".toList) ++
    b.prereqs.flatMap (fun p => "  ".toList ++ p) ++ ['\n'] ++
    b.recipe.flatMap fun f =>
      "\t ".toList ++ replace (f.path blfsCommands) "/mnt/build_dir".toList [] ++ ['\n']

def Makefile.text (m : Makefile) : Text :=
  m.blocks.flatMap Block.text ++ "CHROOT: ".toList ++
    m.chroot.flatMap (fun c => ' ' :: c) ++ ['\n']

example : (Makefile.mk
    [⟨"libpng".toList, ["libpng".toList], ["zlib".toList],
      [⟨"general".toList, "1-2-libpng".toList⟩]⟩] ["libpng".toList]).text =
    "libpng :  zlib\n\t /jhalfs/blfs-commands/general/1-2-libpng\nCHROOT:  libpng\n".toList := by
  decide

/-! ### Which files a name matches -/

/-- A dot matches any character. -/
def Wild (name word : Text) : Prop := List.Forall₂ (fun c d => c = '.' ∧ d ≠ '\n' ∨ c = d) name word

instance (name word : Text) : Decidable (Wild name word) :=
  inferInstanceAs (Decidable (List.Forall₂ _ _ _))

theorem nameItem_iff {c d : Char} : nameItem c d = true ↔ c = '.' ∧ d ≠ '\n' ∨ c = d := by
  unfold nameItem
  by_cases h : c = '.'
  · rw [if_pos h]
    simp only [decide_eq_true_eq, h, true_and, ne_eq]
    constructor
    · exact .inl
    · rintro (hd | rfl)
      · exact hd
      · decide
  · rw [if_neg h]
    simp [h, eq_comm]

theorem Wild.head {c : Char} {name word : Text} (hname : isName (c :: name))
    (h : Wild (c :: name) word) : ∃ rest, word = c :: rest ∧ nameStart c := by
  have hc : nameStart c := by
    simp only [isName, Bool.and_eq_true] at hname
    exact hname.1
  have hdot : c ≠ '.' := by
    rintro rfl
    exact absurd hc (by decide)
  cases h with
  | @cons _ d _ rest hd hrest =>
    rcases hd with ⟨hd, -⟩ | rfl
    · exact absurd hd hdot
    · exact ⟨rest, rfl, hc⟩

theorem wordChar_of_nameStart {c : Char} (h : nameStart c) : Regex.wordChar c := by
  simp only [nameStart, Bool.or_eq_true, decide_eq_true_eq] at h
  simp only [Regex.wordChar, Char.isAlphanum, Bool.or_eq_true, decide_eq_true_eq]
  tauto

theorem not_nameStart_of_isDigit {c : Char} (h : c.isDigit) : nameStart c = false := by
  simp only [Char.isDigit, Bool.and_eq_true, decide_eq_true_eq, ge_iff_le, UInt32.le_iff_toNat_le]
    at h
  have hval : c.toNat = c.val.toNat := rfl
  have h0 : '0'.val.toNat = 48 := rfl
  have h9 : '9'.val.toNat = 57 := rfl
  have hc : c ≠ '_' := by
    rintro rfl
    exact absurd h (by decide)
  simp only [nameStart, Char.isAlpha, Char.isUpper, Char.isLower, hc, decide_false, Bool.or_false,
    Bool.or_eq_false_iff, Bool.and_eq_false_iff, decide_eq_false_iff_not, ge_iff_le,
    UInt32.le_iff_toNat_le]
  have hA : 'A'.val.toNat = 65 := rfl
  have ha : 'a'.val.toNat = 97 := rfl
  omega

theorem not_wild_digits {name ds t : Text} (hname : isName name) (hds : ∀ c ∈ ds, c.isDigit)
    (hne : ds ≠ []) : ¬ Wild name (ds ++ t) := by
  intro h
  cases name with
  | nil => cases hname
  | cons c name =>
    obtain ⟨rest, hword, hstart⟩ := h.head hname
    cases ds with
    | nil => exact hne rfl
    | cons d ds =>
      have hd := hds d List.mem_cons_self
      rw [(List.cons.inj hword).1] at hd
      rw [not_nameStart_of_isDigit hd] at hstart
      cases hstart

theorem boundary_last (w : Text) :
    ((w.getLast?.or (some '-')).any Regex.wordChar != ([] : Text).head?.any Regex.wordChar) =
      w.getLast?.any Regex.wordChar := by
  cases w.getLast? with
  | none => decide
  | some c => simp

/-- A file matches a name when it ends in a digit, a hyphen and a word that the
name stands for. -/
theorem search_namePattern {name file : Text} (hname : isName name) (hfile : '\n' ∉ file) :
    Regex.search (namePattern name) file ↔ ∃ u d w, file = u ++ d :: '-' :: w ∧ d.isDigit ∧
      Wild name w ∧ w.getLast?.any Regex.wordChar := by
  have hwild : ∀ w, List.Forall₂ (fun p c => p c = true) (name.map nameItem) w ↔ Wild name w := by
    intro w
    rw [List.forall₂_map_left_iff]
    simp only [nameItem_iff, Wild]
  unfold Regex.search
  rw [Regex.searchFrom_iff]
  constructor
  · rintro ⟨u, t, rfl, h⟩
    rcases t with _ | ⟨d, _ | ⟨e, t⟩⟩
    · simp [namePattern, Regex.matchHere] at h
    · simp [namePattern, Regex.matchHere] at h
    · simp only [namePattern, Regex.matchHere, Bool.and_eq_true, decide_eq_true_eq,
        Regex.matchHere_ones] at h
      obtain ⟨hd, rfl, -, w, r, rfl, hw, hlast, hend, -⟩ := h
      have hr : r = [] := by
        rcases Bool.or_eq_true _ _ |>.mp hend with hr | hr
        · simpa using hr
        · have : r = ['\n'] := by simpa using hr
          subst this
          exact absurd (by simp) hfile
      subst hr
      rw [List.append_nil]
      rw [boundary_last] at hlast
      exact ⟨u, d, w, rfl, hd, (hwild w).mp hw, hlast⟩
  · rintro ⟨u, d, w, rfl, hd, hw, hlast⟩
    refine ⟨u, d :: '-' :: w, rfl, ?_⟩
    have hhead : w.head?.any Regex.wordChar := by
      cases name with
      | nil => cases hname
      | cons c name =>
        obtain ⟨rest, rfl, hc⟩ := hw.head hname
        exact wordChar_of_nameStart hc
    simp only [namePattern, Regex.matchHere, Bool.and_eq_true, decide_eq_true_eq,
      Regex.matchHere_ones]
    refine ⟨hd, trivial, ?_, w, [], by simp, (hwild w).mpr hw, ?_, by simp⟩
    · rw [hhead]
      decide
    · rw [boundary_last]
      exact hlast

/-- `name` stands for the whole identifier, or for what follows a digit and a hyphen
in it; the match must end in a letter, a digit or an underscore. -/
def Hits (name id : Text) : Prop :=
  ∃ p w, id = p ++ w ∧ (p = [] ∨ ∃ q d, p = q ++ [d, '-'] ∧ d.isDigit) ∧ Wild name w ∧
    w.getLast?.any Regex.wordChar

theorem search_script {name : Text} (hname : isName name) {e : Entry}
    (he : isName e.filename) :
    Regex.search (namePattern name) e.script.file ↔ Hits name e.filename := by
  have hpos : ∀ c ∈ decimal e.position, c.isDigit := fun c => decimal_isDigit
  have hdash : ∀ n, '-' ∉ decimal n := not_mem_decimal (by decide)
  have hnl : '\n' ∉ e.script.file := not_mem_script he (by decide) (by decide) (by decide)
  rw [search_namePattern hname hnl, script_file]
  constructor
  · rintro ⟨u, d, w, hsplit, hd, hw, hlast⟩
    have h1 : (u ++ [d]) ++ '-' :: w =
        decimal e.chapNum ++ '-' :: (decimal e.position ++ '-' :: e.filename) := by
      rw [hsplit]
      simp
    rcases append_cons_eq h1 (hdash _) with ⟨-, hpart⟩ | ⟨z, hz, hrest⟩
    · -- the match would start with the position, which is a digit
      rw [hpart] at hw
      exact absurd hw (not_wild_digits hname hpos (decimal_ne_nil _))
    · rcases append_cons_eq hrest.symm (hdash _) with ⟨-, rfl⟩ | ⟨y, hy, hid⟩
      · exact ⟨[], _, rfl, .inl rfl, hw, hlast⟩
      · -- the match starts inside the identifier
        refine ⟨y ++ ['-'], w, by rw [hid]; simp, .inr ?_, hw, hlast⟩
        rw [hy] at hz
        rcases List.eq_nil_or_concat y with rfl | ⟨q, x, rfl⟩
        · have hz' : u ++ [d] = (decimal e.chapNum ++ '-' :: decimal e.position) ++ ['-'] := by
            rw [hz]
            simp
          have hd' : d = '-' := (List.cons.inj (List.append_inj' hz' rfl).2).1
          rw [hd'] at hd
          exact absurd hd (by decide)
        · have hz' : u ++ [d] =
              (decimal e.chapNum ++ '-' :: (decimal e.position ++ '-' :: q)) ++ [x] := by
            rw [hz]
            simp
          have hd' : d = x := (List.cons.inj (List.append_inj' hz' rfl).2).1
          exact ⟨q, x, by simp, hd' ▸ hd⟩
  · rintro ⟨p, w, hid, hp, hw, hlast⟩
    rcases hp with rfl | ⟨q, d, rfl, hd⟩
    · rcases List.eq_nil_or_concat (decimal e.position) with hdec | ⟨ds, d, hdec⟩
      · exact absurd hdec (decimal_ne_nil _)
      · have hd : d.isDigit := hpos d (by rw [hdec]; simp)
        refine ⟨decimal e.chapNum ++ '-' :: ds, d, w, ?_, hd, hw, hlast⟩
        rw [hdec, hid]
        simp
    · refine ⟨decimal e.chapNum ++ '-' :: (decimal e.position ++ '-' :: q), d, w, ?_, hd, hw, hlast⟩
      rw [hid]
      simp

end HaoosLfs.Blfs
