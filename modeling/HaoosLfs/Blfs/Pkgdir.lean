import HaoosLfs.Blfs.Env
import HaoosLfs.Lib.ShellExpand

/-!
# The build directory of an archive (`lfs.xsl:1223-1262`, `blfs.xsl:144-151`)

The scripts take the name of the build directory from the first line that `tar -tf` prints.
The dot in `^./` stands for any character, and the line may be `./` itself. The name is the
operand of `cd` and `rm -rf`, without quotes.
-/

namespace HaoosLfs.Blfs
open Text ShellWords

def dotSlash : Text := ['.', '/']

structure IsTopName (dir : Text) : Prop where
  ne_nil : dir ≠ []
  slash : '/' ∉ dir
  newline : '\n' ∉ dir
  ne_dot : dir ≠ ['.']
  ne_dots : dir ≠ ['.', '.']

/-- The entry lies under `dir`, or is `dir` itself, with or without a leading `./`. -/
def IsUnderTop (dir entry : Text) : Prop :=
  ∃ rest, entry = dir ++ '/' :: rest ∨ entry = dotSlash ++ (dir ++ '/' :: rest)

/-- The lines of `tar -tf` for an archive with one top directory. -/
structure IsListing (dir : Text) (listing : List Text) : Prop where
  name : IsTopName dir
  entries : ∃ es, (listing = es ∨ listing = dotSlash :: es) ∧ es ≠ [] ∧
    ∀ e ∈ es, IsUnderTop dir e

/-- `PKGDIR` is the directory, and the `$PKGDIR` of `cd` and `rm -rf` names it, whatever else
there is beside it. -/
def EntersTop (dir : Text) (listing : List Text) : Prop :=
  sedPkgdir listing = dir ∧ ∀ e : Pathnames, e.operand (sedPkgdir listing) = some dir

/-- Nothing but the `./` of the first entry, if it has one, is taken away before the first
slash that counts. -/
def FirstEntryTells (dir : Text) (listing : List Text) : Prop :=
  ∃ e ∈ listing.head?, e ≠ dotSlash ∧
    (dotSlash <+: e ∨ 2 ≤ dir.length ∨ component (e.drop 2) = dir)

theorem sedPkgdir_cut (c : Char) (rest : Text) (ls : List Text) :
    sedPkgdir ((c :: '/' :: rest) :: ls) = component rest := rfl

theorem sedPkgdir_long {c d : Char} (hd : d ≠ '/') (rest : Text) (ls : List Text) :
    sedPkgdir ((c :: d :: rest) :: ls) = component (c :: d :: rest) := by
  unfold sedPkgdir
  split
  · next h =>
    rw [List.head?_cons, Option.getD_some] at h
    exact absurd (List.cons.inj (List.cons.inj h).2).1 hd
  · rfl

theorem sedPkgdir_two {dir : Text} (hdir : IsTopName dir) (h : 2 ≤ dir.length) (rest : Text)
    (ls : List Text) : sedPkgdir ((dir ++ '/' :: rest) :: ls) = dir := by
  match dir, h with
  | c :: d :: dir, _ =>
    have hd : d ≠ '/' := by
      rintro rfl
      exact hdir.slash (by simp)
    rw [List.cons_append, List.cons_append, sedPkgdir_long hd]
    exact component_append hdir.slash rest

theorem not_starts_dotSlash {dir : Text} (hdir : IsTopName dir) (rest : Text) :
    ¬ dotSlash <+: dir ++ '/' :: rest := by
  match dir, hdir with
  | [], hdir => exact absurd rfl hdir.ne_nil
  | [c], hdir =>
    intro h
    obtain ⟨rfl, -⟩ := List.cons_prefix_cons.mp h
    exact hdir.ne_dot rfl
  | c :: d :: dir, hdir =>
    intro h
    obtain ⟨-, h⟩ := List.cons_prefix_cons.mp h
    obtain ⟨rfl, -⟩ := List.cons_prefix_cons.mp h
    exact hdir.slash (by simp)

theorem sedPkgdir_iff {dir : Text} {listing : List Text} (h : IsListing dir listing) :
    sedPkgdir listing = dir ↔ FirstEntryTells dir listing := by
  obtain ⟨hdir, es, hlisting, hne, hes⟩ := h
  obtain ⟨e, es, rfl⟩ := List.exists_cons_of_ne_nil hne
  rcases hlisting with rfl | rfl
  · have htells : FirstEntryTells dir (e :: es) ↔
        e ≠ dotSlash ∧ (dotSlash <+: e ∨ 2 ≤ dir.length ∨ component (e.drop 2) = dir) := by
      simp [FirstEntryTells]
    rw [htells]
    obtain ⟨rest, rfl | rfl⟩ := hes e List.mem_cons_self
    · have hpre := not_starts_dotSlash hdir rest
      have hnot : dir ++ '/' :: rest ≠ dotSlash := by
        intro he
        exact hpre (by rw [he])
      by_cases hlen : 2 ≤ dir.length
      · exact iff_of_true (sedPkgdir_two hdir hlen rest es) ⟨hnot, .inr (.inl hlen)⟩
      · obtain ⟨c, rfl⟩ : ∃ c, dir = [c] := by
          refine List.length_eq_one_iff.mp ?_
          have hpos := List.length_pos_iff.mpr hdir.ne_nil
          omega
        rw [List.singleton_append, sedPkgdir_cut]
        simp only [hlen, false_or]
        constructor
        · exact fun h => ⟨hnot, .inr h⟩
        · rintro ⟨-, h | h⟩
          · exact absurd h hpre
          · exact h
    · refine iff_of_true ?_ ⟨?_, .inl (List.prefix_append dotSlash _)⟩
      · exact (sedPkgdir_cut '.' _ es).trans (component_append hdir.slash rest)
      · intro he
        have hlen := congrArg List.length he
        simp only [List.length_append, List.length_cons] at hlen
        omega
  · -- the first line is the current directory itself
    refine iff_of_false ?_ ?_
    · exact fun h => hdir.ne_nil h.symm
    · rintro ⟨e', he', hne', -⟩
      exact hne' (Option.some.inj he').symm

/-- A name that the shell neither splits nor takes for a pattern, and no command for an option. -/
def IsOperand (name : Text) : Prop :=
  ((∀ c ∈ name, isIfs c = false) ∧ hasPattern name = false) ∧ name.head? ≠ some '-'

def m4Dir : Text := "m4-1.4.18".toList

theorem isTopName_m4Dir : IsTopName m4Dir := by
  constructor <;> decide

def m4Listing : List Text := ["m4-1.4.18/".toList, "m4-1.4.18/configure".toList]

theorem isListing_m4 : IsListing m4Dir m4Listing := by
  refine ⟨isTopName_m4Dir, m4Listing, .inl rfl, by decide, ?_⟩
  intro e he
  simp only [m4Listing, List.mem_cons, List.not_mem_nil, or_false] at he
  rcases he with rfl | rfl
  · exact ⟨[], .inl rfl⟩
  · exact ⟨"configure".toList, .inl rfl⟩

end HaoosLfs.Blfs
