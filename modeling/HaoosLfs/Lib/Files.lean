import HaoosLfs.Lib.Text

/-!
# File trees

A tree gives the contents of the files that exist. Directories are not
represented: a file stands below a directory when its path continues that of the
directory after a slash.
-/

namespace HaoosLfs

abbrev Files (α : Type) := Text → Option α

namespace Files
variable {α : Type}

def write (t : Files α) (path : Text) (c : α) : Files α := fun p => if p = path then some c else t p

def writeAll (t : Files α) (new : List (Text × α)) : Files α :=
  new.foldl (fun t f => t.write f.1 f.2) t

/-- Is `path` removed with `target`, as the file itself or below it? -/
def Under (target path : Text) : Prop := path = target ∨ target ++ ['/'] <+: path

instance (target path : Text) : Decidable (Under target path) :=
  inferInstanceAs (Decidable (_ ∨ _))

/-- `rm -rf` with a list of targets. -/
def rmrf (t : Files α) (targets : List Text) : Files α :=
  fun p => if ∃ target ∈ targets, Under target p then none else t p

/-- `found` lists the files with `p`, each once; the order is that of the disk. -/
structure Lists (t : Files α) (p : Text → Prop) (found : List Text) : Prop where
  nodup : found.Nodup
  mem : ∀ path, path ∈ found ↔ p path ∧ (t path).isSome

theorem writeAll_isSome (t : Files α) (new : List (Text × α)) (path : Text) :
    (t.writeAll new path).isSome ↔ path ∈ new.map Prod.fst ∨ (t path).isSome := by
  induction new generalizing t with
  | nil => simp [writeAll]
  | cons f new ih =>
    show ((t.write f.1 f.2).writeAll new path).isSome ↔ _
    rw [ih, List.map_cons, List.mem_cons]
    by_cases h : path = f.1
    · simp [write, h]
    · simp [write, h]

theorem writeAll_of_not_mem {t : Files α} {new : List (Text × α)} {path : Text}
    (h : path ∉ new.map Prod.fst) : t.writeAll new path = t path := by
  induction new generalizing t with
  | nil => rfl
  | cons f new ih =>
    rw [List.map_cons, List.mem_cons, not_or] at h
    show (t.write f.1 f.2).writeAll new path = _
    rw [ih h.2, write, if_neg h.1]

theorem write_self (t : Files α) (path : Text) (c : α) : t.write path c path = some c := if_pos rfl

theorem write_of_ne {t : Files α} {path path' : Text} {c : α} (h : path' ≠ path) :
    t.write path c path' = t path' := if_neg h

theorem rmrf_of_under {t : Files α} {targets : List Text} {path : Text}
    (h : ∃ target ∈ targets, Under target path) : t.rmrf targets path = none := if_pos h

theorem rmrf_of_not_under {t : Files α} {targets : List Text} {path : Text}
    (h : ∀ target ∈ targets, ¬ Under target path) : t.rmrf targets path = t path :=
  if_neg fun ⟨target, hm, hu⟩ => h target hm hu

theorem Lists.perm {t t' : Files α} {p : Text → Prop} {found found' : List Text}
    (h : t.Lists p found) (h' : t'.Lists p found')
    (hsame : ∀ path, p path → ((t path).isSome ↔ (t' path).isSome)) : found.Perm found' := by
  apply (List.perm_ext_iff_of_nodup h.nodup h'.nodup).mpr
  intro path
  rw [h.mem, h'.mem]
  exact and_congr_right fun hp => hsame path hp

theorem exists_lists {t : Files α} {p : Text → Prop} (all : List Text)
    (hall : ∀ path, p path → (t path).isSome → path ∈ all) : ∃ found, t.Lists p found := by
  classical
  refine ⟨(all.filter fun path => p path ∧ (t path).isSome).dedup, List.nodup_dedup _,
    fun path => ?_⟩
  rw [List.mem_dedup, List.mem_filter, decide_eq_true_eq]
  exact ⟨fun h => h.2, fun h => ⟨hall path h.1 h.2, h⟩⟩

end Files

end HaoosLfs
