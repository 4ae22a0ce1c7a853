import HaoosLfs.Lib.ShellExpand

/-!
# Package keys (`install.sh:101-158`, `blfs-install.sh:104-170`)

`trans_name` turns an entry of a list into the key under which the download of
the package is looked up, in a global variable. The words of a list are taken as they are,
which is right where none of them is a pattern.
-/

namespace HaoosLfs.Install
open Text ShellWords

/-! ### The words of a list -/

/-- `for cmd_flag in $(cat $2)` -/
def listEntries (e : Pathnames) (list : Text) : List Text := e.unquoted list

/-- Where no word is a pattern, the entries are the words, and each is one argument of the
commands that are given it without quotes. -/
theorem listEntries_plain {list : Text}
    (h : ∀ w ∈ words list, hasPattern (w ++ ".cmd".toList) = false) (e : Pathnames) :
    listEntries e list = words list ∧ ∀ entry ∈ listEntries e list,
      e.unquoted entry = [entry] ∧
        e.unquoted (entry ++ ".cmd".toList) = [entry ++ ".cmd".toList] := by
  have hentries : listEntries e list = words list := by
    unfold listEntries Pathnames.unquoted
    rw [List.flatMap_congr fun w hw => e.literal w (hasPattern_append _ (h w hw))]
    exact List.flatMap_singleton' _
  refine ⟨hentries, fun entry hmem => ?_⟩
  rw [hentries] at hmem
  have hblank := not_isIfs_of_mem_words hmem
  have hne : entry ≠ [] := of_decide_eq_true (List.mem_filter.mp hmem).2
  refine ⟨e.unquoted_plain hne hblank (hasPattern_append _ (h entry hmem)),
    e.unquoted_plain (List.append_ne_nil_of_left_ne_nil hne _) (fun c hc => ?_) (h entry hmem)⟩
  rcases List.mem_append.mp hc with hc | hc
  · exact hblank c hc
  · have hall : (".cmd".toList.all fun c => !isIfs c) = true := by decide
    exact Bool.not_eq_true' _ ▸ List.all_eq_true.mp hall c hc

/-- The global variables that `trans_name` sets; those with several lines as lists. -/
structure Shell where
  pkgFlag : Text
  cmdFlag : Text
  cmdFilePath : List Text
  chapter : List Text
  deriving DecidableEq

/-! ### trans_name -/

/-- The arms of the `case` that set `pkg_flag`. -/
def aliases : List (Text × Text) :=
  [("linux-headers".toList, "linux".toList), ("libstdc++".toList, "gcc".toList),
    ("xz".toList, "Xz Utils".toList), ("pkgconfig".toList, "pkg-config".toList),
    ("libelf".toList, "Elfutils".toList), ("dbus".toList, "D-Bus".toList),
    ("kernel".toList, "Linux".toList)]

def aliasOf (name : Text) : Option Text := aliases.lookup name

/-- `basename -s -pass1`, then `basename -s -pass2`. -/
def strippedName (entry : Text) : Text :=
  basenameS "-pass2".toList (basenameS "-pass1".toList entry)

/-- `awk -F '/' '{print $(NF-1)}'` -/
def fieldBeforeLast (line : Text) : Text :=
  match (line.splitOn '/').reverse with
  | _ :: field :: _ => field
  | _ => line

section

/- The file tree with what `find -name` prints of it, and `uncompress_pkg` with
`install_pkg`, which set none of these variables; `none` when the script exits. -/
variable {ω : Type} (find : ω → Text → List Text) (uncompressPkg : ω → Shell → Option ω)

/-- The two scripts differ in the words they look for and in the last arm of the
`case`. An entry with `#` is not skipped: `continue` has no loop in the function. -/
def transNameWith (family : Text) (lastArm : Text → Text → Text) (w : ω) (sh : Shell)
    (entry : Text) : Shell :=
  let cmdFilePath := (find w (entry ++ ".cmd".toList)).filter fun path => contains path family
  let cmdFlag := strippedName entry
  { pkgFlag := (aliasOf cmdFlag).getD (lastArm sh.pkgFlag cmdFlag)
    cmdFlag := cmdFlag
    cmdFilePath := cmdFilePath
    chapter := cmdFilePath.map fieldBeforeLast }

/-- `*) ;;` -/
def transName : ω → Shell → Text → Shell :=
  transNameWith find "lfs".toList fun pkgFlag _ => pkgFlag

/-- `*) pkg_flag=$cmd_flag ;;` -/
def blfsTransName : ω → Shell → Text → Shell :=
  transNameWith find "blfs".toList fun _ cmdFlag => cmdFlag

/-! ### The loop over a list -/

/-- A call of `uncompress_pkg`, for an entry. -/
structure Call where
  entry : Text
  key : Text
  deriving DecidableEq

def runList (trans : ω → Shell → Text → Shell) : ω → Shell → List Text → List Call
  | _, _, [] => []
  | w, sh, entry :: entries =>
    let sh := trans w sh entry
    ⟨entry, sh.pkgFlag⟩ ::
      match uncompressPkg w sh with
      | some w => runList trans w sh entries
      | none => []

def installList : ω → Shell → List Text → List Call := runList uncompressPkg (transName find)

def blfsInstallList : ω → Shell → List Text → List Call :=
  runList uncompressPkg (blfsTransName find)

end

/-! ### Stripped names -/

theorem basenameS_plain {suffix name : Text} (hslash : '/' ∉ name) (hne : name ≠ [])
    (hdash : name.head? ≠ some '-') : basenameS suffix name = removeSuffix suffix name := by
  unfold basenameS
  rw [if_neg, basename_plain hslash]
  rintro (h | h)
  · exact hne h
  · exact hdash h.1

theorem strippedName_plain {name : Text} (hslash : '/' ∉ name) (hne : name ≠ [])
    (hdash : name.head? ≠ some '-') (h1 : ¬ "-pass1".toList <:+ name)
    (h2 : ¬ "-pass2".toList <:+ name) :
    strippedName name = name ∧ strippedName (name ++ "-pass1".toList) = name ∧
      strippedName (name ++ "-pass2".toList) = name := by
  have hhead : ∀ suffix : Text, (name ++ suffix).head? ≠ some '-' := by
    intro suffix
    cases name with
    | nil => exact absurd rfl hne
    | cons c name => exact hdash
  have happ : ∀ {suffix : Text}, '/' ∉ suffix → '/' ∉ name ++ suffix :=
    fun h hm => (List.mem_append.mp hm).elim hslash h
  have hne' : ∀ suffix : Text, name ++ suffix ≠ [] := fun _ h => hne (List.append_eq_nil_iff.mp h).1
  have hlast : basenameS "-pass2".toList name = name := by
    rw [basenameS_plain hslash hne hdash, removeSuffix_of_not h2]
  have h21 : ¬ "-pass1".toList <:+ name ++ "-pass2".toList := by
    intro h
    obtain ⟨u, hu⟩ := h
    have hlen : "-pass1".toList.length = "-pass2".toList.length := by decide
    exact absurd (List.append_inj' hu hlen).2 (by decide)
  unfold strippedName
  refine ⟨?_, ?_, ?_⟩
  · rw [basenameS_plain hslash hne hdash, removeSuffix_of_not h1, hlast]
  · rw [basenameS_plain (happ (by decide)) (hne' _) (hhead _), removeSuffix_append hne, hlast]
  · rw [basenameS_plain (happ (by decide)) (hne' _) (hhead _), removeSuffix_of_not h21,
      basenameS_plain (happ (by decide)) (hne' _) (hhead _), removeSuffix_append hne]

/-! ### Keys -/

def keyOf (entry : Text) : Text := (aliasOf (strippedName entry)).getD (strippedName entry)

def lastAlias (entries : List Text) : Option Text :=
  entries.reverse.findSome? fun entry => aliasOf (strippedName entry)

theorem lastAlias_cons (entry : Text) (entries : List Text) (old : Text) :
    (lastAlias (entry :: entries)).getD old =
      (lastAlias entries).getD ((aliasOf (strippedName entry)).getD old) := by
  unfold lastAlias
  rw [List.reverse_cons, List.findSome?_append, List.findSome?_singleton]
  cases entries.reverse.findSome? fun entry => aliasOf (strippedName entry) with
  | none => rfl
  | some a => rfl

section
variable {ω : Type} {find : ω → Text → List Text} {uncompressPkg : ω → Shell → Option ω}

/-- The key of an entry is its alias, or what the entries before it left behind. -/
theorem key_of_call {entries : List Text} {w : ω} {sh : Shell} {c : Call}
    (hc : c ∈ installList find uncompressPkg w sh entries) :
    ∃ before after, entries = before ++ c.entry :: after ∧ c.key =
      (aliasOf (strippedName c.entry)).getD ((lastAlias before).getD sh.pkgFlag) := by
  induction entries generalizing w sh with
  | nil => cases hc
  | cons entry entries ih =>
    rcases List.mem_cons.mp hc with rfl | hc
    · exact ⟨[], entries, rfl, rfl⟩
    · cases hw : uncompressPkg w (transName find w sh entry) with
      | none =>
        simp only [hw] at hc
        cases hc
      | some w' =>
        simp only [hw] at hc
        obtain ⟨before, after, rfl, hkey⟩ := ih hc
        refine ⟨entry :: before, after, rfl, ?_⟩
        rw [hkey, lastAlias_cons]
        rfl

theorem call_of_split (before after : List Text) (entry : Text) (w : ω) (sh : Shell) :
    (⟨entry, (aliasOf (strippedName entry)).getD ((lastAlias before).getD sh.pkgFlag)⟩ : Call) ∈
      installList find (fun w _ => some w) w sh (before ++ entry :: after) := by
  induction before generalizing sh with
  | nil => exact List.mem_cons_self
  | cons first before ih =>
    rw [lastAlias_cons]
    exact List.mem_cons_of_mem _ (ih (transName find w sh first))

theorem blfs_key {entries : List Text} {w : ω} {sh : Shell} {c : Call}
    (hc : c ∈ blfsInstallList find uncompressPkg w sh entries) : c.key = keyOf c.entry := by
  induction entries generalizing w sh with
  | nil => cases hc
  | cons entry entries ih =>
    rcases List.mem_cons.mp hc with rfl | hc
    · rfl
    · cases hw : uncompressPkg w (blfsTransName find w sh entry) with
      | none =>
        simp only [hw] at hc
        cases hc
      | some w' =>
        simp only [hw] at hc
        exact ih hc

end

/-- Whatever happens to the packages, each entry of a list gets its own key exactly
when every entry without an alias is named like the last alias before it. -/
theorem keys_iff (sh : Shell) (entries : List Text) :
    (∀ (ω : Type) (find : ω → Text → List Text) (uncompressPkg : ω → Shell → Option ω) (w : ω),
      ∀ c ∈ installList find uncompressPkg w sh entries, c.key = keyOf c.entry) ↔
      ∀ before entry after, entries = before ++ entry :: after →
        aliasOf (strippedName entry) = none →
          (lastAlias before).getD sh.pkgFlag = strippedName entry := by
  constructor
  · rintro h before entry after rfl hnone
    have hkey := h Unit (fun _ _ => []) (fun w _ => some w) () _
      (call_of_split before after entry () sh)
    simp only [keyOf, hnone, Option.getD_none] at hkey
    exact hkey
  · intro h ω find uncompressPkg w c hc
    obtain ⟨before, after, hsplit, hkey⟩ := key_of_call hc
    rw [hkey, keyOf]
    cases ha : aliasOf (strippedName c.entry) with
    | none =>
      rw [Option.getD_none, Option.getD_none]
      exact h before c.entry after hsplit ha
    | some a => rfl

/-- After `xz`, the key for `zlib` is that of `xz`. -/
theorem not_keys_xz_zlib :
    ¬ ∀ (ω : Type) (find : ω → Text → List Text) (uncompressPkg : ω → Shell → Option ω) (w : ω),
      ∀ c ∈ installList find uncompressPkg w ⟨[], [], [], []⟩ ["xz".toList, "zlib".toList],
        c.key = keyOf c.entry := by
  intro h
  have hcalls := h Unit (fun _ _ => []) (fun w _ => some w) ()
  revert hcalls
  decide

end HaoosLfs.Install
