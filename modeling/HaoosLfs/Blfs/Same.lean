import HaoosLfs.Blfs.Rules

/-!
# The Makefile for more files

What further files in the directory change in the generated Makefile. The order
of prerequisites and of recipe lines is that of the disk, so Makefiles are
compared up to this order.
-/

namespace HaoosLfs.Blfs
open Book Text Kconfiglib

structure Block.Same (b b' : Block) : Prop where
  name : b.name = b'.name
  heads : b.heads = b'.heads
  prereqs : b.prereqs.Perm b'.prereqs
  recipe : b.recipe.Perm b'.recipe

structure Makefile.Same (m m' : Makefile) : Prop where
  blocks : List.Forall₂ Block.Same m.blocks m'.blocks
  chroot : m.chroot = m'.chroot

def lookedUp (k : Kconfig) (name : Text) : List Text :=
  (exprItems (k.directDep name)).dedup.filter fun d => d ≠ "y".toList

def consulted (k : Kconfig) (config : Text) : List Text :=
  (built k config).flatMap fun name => name :: lookedUp k name

section More
variable {files more : List Script}

def Unmatched (files more : List Script) (name : Text) : Prop :=
  ∀ f ∈ more, f ∉ files → ¬ Regex.search (namePattern name) f.file

theorem found_perm_iff (hn : files.Nodup) (hm : more.Nodup) (hsub : files ⊆ more) (name : Text) :
    (found more name).Perm (found files name) ↔ Unmatched files more name := by
  constructor
  · intro h f hf hno hs
    have hmem : f ∈ found more name := List.mem_filter.mpr ⟨hf, hs⟩
    exact hno (List.mem_of_mem_filter (h.mem_iff.mp hmem))
  · intro h
    apply (List.perm_ext_iff_of_nodup (hm.filter _) (hn.filter _)).mpr
    intro f
    rw [List.mem_filter, List.mem_filter]
    constructor
    · rintro ⟨hf, hs⟩
      exact ⟨by_contra fun hno => h f hf hno hs, hs⟩
    · rintro ⟨hf, hs⟩
      exact ⟨hsub hf, hs⟩

theorem found_length_iff (hn : files.Nodup) (hm : more.Nodup) (hsub : files ⊆ more) (name : Text) :
    (found more name).length = (found files name).length ↔ Unmatched files more name := by
  rw [← found_perm_iff hn hm hsub]
  constructor
  · intro h
    have hsubperm : (found files name).Subperm (found more name) :=
      (hn.filter _).subperm fun f hf =>
        List.mem_filter.mpr ⟨hsub (List.mem_of_mem_filter hf), (List.mem_filter.mp hf).2⟩
    exact (hsubperm.perm_of_length_le (le_of_eq h)).symm
  · exact List.Perm.length_eq

theorem map_const_eq_iff {xs ys : List Script} {name : Text} :
    xs.map (fun _ => name) = ys.map (fun _ => name) ↔ xs.length = ys.length := by
  rw [List.map_const', List.map_const']
  exact ⟨fun h => by simpa using congrArg List.length h, fun h => by rw [h]⟩

theorem count_lookups (names : List Text) (hnames : names.Nodup) {d : Text} (hd : d ∈ names) :
    (names.flatMap (findOrderName files)).count d = (found files d).length := by
  have hcount : ∀ name, (findOrderName files name).count d =
      if name = d then (found files d).length else 0 := by
    intro name
    unfold findOrderName
    by_cases h : name = d
    · simp [h]
    · simp [h, List.count_replicate]
  rw [List.count_flatMap]
  induction names with
  | nil => cases hd
  | cons name names ih =>
    obtain ⟨hnot, hrest⟩ := List.nodup_cons.mp hnames
    rw [List.map_cons, List.sum_cons, Function.comp_apply, hcount]
    by_cases h : name = d
    · subst h
      have hzero : (names.map (List.count name ∘ findOrderName files)).sum = 0 := by
        rw [List.sum_eq_zero_iff]
        intro n hn
        obtain ⟨x, hx, rfl⟩ := List.mem_map.mp hn
        rw [Function.comp_apply, hcount, if_neg]
        rintro rfl
        exact hnot hx
      rw [if_pos rfl, hzero]
      omega
    · rw [if_neg h, ih hrest ((List.mem_cons.mp hd).resolve_left (Ne.symm h))]
      omega

theorem lookups_perm_iff (hn : files.Nodup) (hm : more.Nodup) (hsub : files ⊆ more)
    {names : List Text} (hnames : names.Nodup) :
    (names.flatMap (findOrderName more)).Perm (names.flatMap (findOrderName files)) ↔
      ∀ d ∈ names, Unmatched files more d := by
  constructor
  · intro h d hd
    have hcount := h.count_eq d
    rw [count_lookups names hnames hd, count_lookups names hnames hd] at hcount
    exact (found_length_iff hn hm hsub d).mp hcount
  · intro h
    have hsame : names.flatMap (findOrderName more) = names.flatMap (findOrderName files) :=
      List.flatMap_congr fun d hd =>
        map_const_eq_iff.mpr ((found_length_iff hn hm hsub d).mpr (h d hd))
    rw [hsame]

theorem block_same_iff (hn : files.Nodup) (hm : more.Nodup) (hsub : files ⊆ more) (k : Kconfig)
    (name : Text) :
    Block.Same (buildMakefileNode k more name) (buildMakefileNode k files name) ↔
      ∀ d ∈ name :: lookedUp k name, Unmatched files more d := by
  have hlooked : (lookedUp k name).Nodup := (List.nodup_dedup _).filter _
  constructor
  · rintro ⟨-, hheads, hprereqs, -⟩ d hd
    rcases List.mem_cons.mp hd with rfl | hd
    · exact (found_length_iff hn hm hsub d).mp (map_const_eq_iff.mp hheads)
    · exact (lookups_perm_iff hn hm hsub hlooked).mp hprereqs d hd
  · intro h
    have hself := h name List.mem_cons_self
    refine ⟨rfl, map_const_eq_iff.mpr ((found_length_iff hn hm hsub name).mpr hself), ?_,
      (found_perm_iff hn hm hsub name).mpr hself⟩
    exact (lookups_perm_iff hn hm hsub hlooked).mpr fun d hd => h d (List.mem_cons_of_mem _ hd)

/-- Further files leave the Makefile the same exactly when they match none of the
names for which files are searched. -/
theorem blfsPy_same_iff (hn : files.Nodup) (hm : more.Nodup) (hsub : files ⊆ more)
    (cmd config : Text) :
    Option.Rel Makefile.Same (blfsPy cmd config more) (blfsPy cmd config files) ↔
      ∀ k, load cmd = some k → ∀ name ∈ consulted k config, Unmatched files more name := by
  unfold blfsPy
  cases load cmd with
  | none => exact ⟨fun _ => nofun, fun _ => .none⟩
  | some k =>
    have hblocks : List.Forall₂ Block.Same ((built k config).map (buildMakefileNode k more))
        ((built k config).map (buildMakefileNode k files)) ↔
          ∀ name ∈ consulted k config, Unmatched files more name := by
      rw [List.forall₂_map_left_iff, List.forall₂_map_right_iff, List.forall₂_same]
      simp only [block_same_iff hn hm hsub, consulted, List.mem_flatMap]
      constructor
      · rintro h d ⟨name, hname, hd⟩
        exact h name hname d hd
      · exact fun h name hname d hd => h d ⟨name, hname, hd⟩
    constructor
    · intro h k' hk'
      obtain rfl := Option.some.inj hk'
      cases h with
      | some h => exact hblocks.mp h.blocks
    · intro h
      have hsame := hblocks.mpr (h k rfl)
      refine .some ⟨hsame, ?_⟩
      show List.flatMap Block.heads _ = List.flatMap Block.heads _
      generalize (built k config).map (buildMakefileNode k more) = bs at hsame ⊢
      generalize (built k config).map (buildMakefileNode k files) = bs' at hsame ⊢
      induction hsame with
      | nil => rfl
      | cons hb _ ih => rw [List.flatMap_cons, List.flatMap_cons, hb.heads, ih]

end More

end HaoosLfs.Blfs
