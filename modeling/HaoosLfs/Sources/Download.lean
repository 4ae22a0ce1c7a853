import HaoosLfs.Lib.Files
import HaoosLfs.Lib.Lists

/-!
# Downloading the sources (`download-lfs-source.sh:20-52`)

The loop checks the files of the current directory against `urls.lst`. The
downloads run in the background and write to another directory, so what is checked
does not change during the loop. The lines are the standard input of the whole loop.
-/

namespace HaoosLfs.Sources
open Text

/-- `IFS=" " read -r url md5` -/
def readUrlMd5 (line : Text) : Text × Text :=
  let line := (line.dropWhile (· = ' ')).reverse.dropWhile (· = ' ') |>.reverse
  (line.takeWhile (· ≠ ' '), (line.dropWhile (· ≠ ' ')).dropWhile (· = ' '))

/-- `file_name=$(basename "$url")` -/
def fileNameOf (line : Text) : Text := basenameArg (readUrlMd5 line).1

/-- `md5sum` with one operand. A name with a leading hyphen is an option or the standard input:
it may read the lines that are left of `urls.lst`, and prints something else. -/
structure Md5sum where
  sum : Text → Text
  readsInput : Text → Bool
  optionPrints : Text → List Text → Text

namespace Md5sum
variable (m : Md5sum)

def takesInput (name : Text) : Bool := name.head? = some '-' && m.readsInput name

/-- `md5sum "$file_name" | awk '{print $1}'`; a line for a name that is written with escapes
begins with a backslash. -/
def computed (name content : Text) (left : List Text) : Text :=
  if name.head? = some '-' then m.optionPrints name left
  else if '\\' ∈ name ∨ '\n' ∈ name ∨ '\r' ∈ name then '\\' :: m.sum content
  else m.sum content

end Md5sum

/-- The flag and the processes of the loop; `fetched` are the urls given to `wget`. -/
structure Loop where
  missingFiles : Bool
  pidArray : List Text
  fetched : List Text
  deriving DecidableEq

def Loop.start : Loop := ⟨false, [], []⟩

section

/- The directory that is checked. -/
variable (m : Md5sum) (dir : Files Text)

def downloadStep (l : Loop) (line : Text) (left : List Text) : Loop :=
  let url := (readUrlMd5 line).1
  let md5 := (readUrlMd5 line).2
  match dir (fileNameOf line) with
  | some content =>
    if m.computed (fileNameOf line) content left = md5 then l
    else { l with fetched := l.fetched ++ [url] }
  | none =>
    { missingFiles := true
      pidArray := l.pidArray ++ [url]
      fetched := l.fetched ++ [url] }

/-- No line is left after this one: `md5sum` has read them. -/
def takesLines (line : Text) : Bool :=
  (dir (fileNameOf line)).isSome && m.takesInput (fileNameOf line)

/-- The loop over the lines of `urls.lst`. -/
def downloadLoop : Loop → List Text → Loop
  | l, [] => l
  | l, line :: left =>
    if takesLines m dir line then downloadStep m dir l line left
    else downloadLoop (downloadStep m dir l line left) left

def linesRead (lines : List Text) : List Text :=
  upToFirst (fun line => !takesLines m dir line) lines

/-- `All packets have downloaded.` -/
def Announced (lines : List Text) : Prop := (downloadLoop m dir .start lines).missingFiles = false

def Complete (lines : List Text) : Prop :=
  ∀ line ∈ lines, ∃ content, dir (fileNameOf line) = some content ∧
    m.sum content = (readUrlMd5 line).2

/-- For every line that is read the file is there, and `md5sum` prints what is listed. -/
def Checked : List Text → Prop
  | [] => True
  | line :: left =>
    (∃ content, dir (fileNameOf line) = some content ∧
      m.computed (fileNameOf line) content left = (readUrlMd5 line).2) ∧
    (takesLines m dir line = false → Checked left)

end

variable {m : Md5sum} {dir : Files Text}

theorem downloadStep_missing (l : Loop) (line : Text) (left : List Text) :
    (downloadStep m dir l line left).missingFiles =
      (l.missingFiles || (dir (fileNameOf line)).isNone) := by
  unfold downloadStep
  cases hd : dir (fileNameOf line) with
  | none => simp
  | some content =>
    dsimp only
    split_ifs <;> simp

theorem downloadLoop_missing (lines : List Text) (l : Loop) :
    (downloadLoop m dir l lines).missingFiles =
      (l.missingFiles ||
        (linesRead m dir lines).any fun line => (dir (fileNameOf line)).isNone) := by
  induction lines generalizing l with
  | nil => simp [downloadLoop, linesRead, upToFirst]
  | cons line left ih =>
    rw [downloadLoop, linesRead, upToFirst]
    by_cases ht : takesLines m dir line
    · simp [ht, downloadStep_missing]
    · have hleft : upToFirst (fun line => !takesLines m dir line) left = linesRead m dir left := rfl
      simp [ht, ih, downloadStep_missing, hleft, Bool.or_assoc]

theorem downloadStep_fetched (l : Loop) (line : Text) (left : List Text) :
    (downloadStep m dir l line left).fetched = l.fetched ++
      if (dir (fileNameOf line)).map (fun content => m.computed (fileNameOf line) content left) =
        some (readUrlMd5 line).2 then [] else [(readUrlMd5 line).1] := by
  unfold downloadStep
  cases hd : dir (fileNameOf line) with
  | none => simp
  | some content =>
    by_cases hm : m.computed (fileNameOf line) content left = (readUrlMd5 line).2
    · simp [hm]
    · simp [hm]

theorem downloadLoop_fetched (lines : List Text) (l : Loop) :
    (downloadLoop m dir l lines).fetched = [] ↔ l.fetched = [] ∧ Checked m dir lines := by
  induction lines generalizing l with
  | nil => simp [downloadLoop, Checked]
  | cons line left ih =>
    have hstep : (downloadStep m dir l line left).fetched = [] ↔ l.fetched = [] ∧
        ∃ content, dir (fileNameOf line) = some content ∧
          m.computed (fileNameOf line) content left = (readUrlMd5 line).2 := by
      rw [downloadStep_fetched, List.append_eq_nil_iff, ← Option.map_eq_some_iff]
      refine and_congr_right fun _ => ?_
      split_ifs with h
      · exact iff_of_true rfl h
      · exact iff_of_false not_false h
    rw [downloadLoop, Checked]
    by_cases ht : takesLines m dir line
    · rw [if_pos ht, hstep]
      simp [ht]
    · rw [if_neg ht, ih, hstep, and_assoc]
      simp [ht]

/-- For every list and every state of the directory, the announcement is true exactly when
some file of a line that is read is missing, or no listed file that is there is damaged and
the files of the lines that are not read are there. -/
theorem announced_complete_iff (m : Md5sum) (dir : Files Text) (lines : List Text) :
    (Announced m dir lines → Complete m dir lines) ↔
      (∃ line ∈ linesRead m dir lines, dir (fileNameOf line) = none) ∨
        ∀ line ∈ lines,
          (∀ content, dir (fileNameOf line) = some content →
            m.sum content = (readUrlMd5 line).2) ∧
          (line ∉ linesRead m dir lines → (dir (fileNameOf line)).isSome) := by
  have hmissing : Announced m dir lines ↔
      ¬ ∃ line ∈ linesRead m dir lines, dir (fileNameOf line) = none := by
    unfold Announced
    rw [downloadLoop_missing]
    simp [Loop.start]
  rw [hmissing]
  unfold Complete
  constructor
  · intro h
    by_cases hm : ∃ line ∈ linesRead m dir lines, dir (fileNameOf line) = none
    · exact .inl hm
    · right
      intro line hline
      obtain ⟨content, hc, hsum⟩ := h hm line hline
      refine ⟨fun content' hc' => ?_, fun _ => by rw [hc]; rfl⟩
      obtain rfl := Option.some.inj (hc.symm.trans hc')
      exact hsum
  · rintro (hm | hall) hno line hline
    · exact absurd hm hno
    · obtain ⟨hsum, hunread⟩ := hall line hline
      cases hc : dir (fileNameOf line) with
      | some content => exact ⟨content, rfl, hsum content hc⟩
      | none =>
        by_cases hread : line ∈ linesRead m dir lines
        · exact absurd ⟨line, hread, hc⟩ hno
        · have hthere := hunread hread
          rw [hc] at hthere
          cases hthere

def emptyArchive : Files Text :=
  fun name => if name = "m4-1.4.19.tar.xz".toList then some [] else none

def md5OfEmpty : Md5sum where
  sum content := if content = [] then "d41d8cd98f00b204e9800998ecf8427e".toList else []
  readsInput name := name = ['-']
  optionPrints _ _ := []

def m4Line : Text :=
  "https://ftp.gnu.org/gnu/m4/m4-1.4.19.tar.xz 0d90823e1426f1da2fd872df0311298d".toList

/-- The archive is damaged, and everything counts as downloaded. -/
theorem not_announced_complete_m4 :
    ¬ (Announced md5OfEmpty emptyArchive [m4Line] → Complete md5OfEmpty emptyArchive [m4Line]) := by
  intro h
  have hannounced : Announced md5OfEmpty emptyArchive [m4Line] := by
    unfold Announced
    decide +kernel
  obtain ⟨content, hc, hsum⟩ := h hannounced m4Line List.mem_cons_self
  have hname : emptyArchive (fileNameOf m4Line) = some [] := by decide +kernel
  rw [hname] at hc
  obtain rfl := Option.some.inj hc
  revert hsum
  decide +kernel

end HaoosLfs.Sources
