import HaoosLfs.Lib.Text

/-!
# Line by line with a flag

A text that is rewritten line by line, where some lines toggle a flag that the
rewriting of the later lines reads. The flag at a line is a parity.
-/

namespace HaoosLfs

variable {α β γ : Type*}

theorem map_mapIdx (f : ℕ → α → β) (g : β → γ) (ls : List α) :
    (ls.mapIdx f).map g = ls.mapIdx fun i l => g (f i l) := by
  rw [List.mapIdx_eq_zipIdx_map, List.mapIdx_eq_zipIdx_map, List.map_map]
  rfl

/-- Each element is rewritten under the flag, which `toggle` picks the changes of. -/
def lineFold (toggle : α → Bool) (f : Bool → α → β) : Bool → List α → List β
  | _, [] => []
  | b, l :: ls => f b l :: lineFold toggle f (b ^^ toggle l) ls

/-- Whether an odd number of the elements before place `i` toggle the flag. -/
def oddBefore (toggle : α → Bool) (ls : List α) (i : ℕ) : Bool :=
  decide (Odd ((ls.take i).countP toggle))

theorem oddBefore_zero (toggle : α → Bool) (ls : List α) : oddBefore toggle ls 0 = false := rfl

theorem oddBefore_succ (toggle : α → Bool) (l : α) (ls : List α) (i : ℕ) :
    oddBefore toggle (l :: ls) (i + 1) = (toggle l ^^ oddBefore toggle ls i) := by
  unfold oddBefore
  rw [List.take_succ_cons, List.countP_cons]
  cases toggle l with
  | false => simp
  | true => simp only [if_true, Nat.odd_add_one, Bool.true_xor, decide_not]

theorem lineFold_eq_mapIdx (toggle : α → Bool) (f : Bool → α → β) (b : Bool) (ls : List α) :
    lineFold toggle f b ls = ls.mapIdx fun i l => f (b ^^ oddBefore toggle ls i) l := by
  induction ls generalizing b with
  | nil => rfl
  | cons l ls ih =>
    rw [lineFold, List.mapIdx_cons, ih, oddBefore_zero, Bool.xor_false]
    congr 2
    funext i m
    rw [oddBefore_succ, Bool.xor_assoc]

namespace Text

theorem not_newline_splitOn {s l : Text} (h : l ∈ s.splitOn '\n') : '\n' ∉ l := by
  induction hn : s.length using Nat.strong_induction_on generalizing s with
  | _ n ih =>
    by_cases hs : '\n' ∈ s
    · obtain ⟨a, b, rfl, ha⟩ := List.eq_append_cons_of_mem hs
      rw [List.splitOn_append_cons_self_of_not_mem ha, List.mem_cons] at h
      rcases h with rfl | h
      · exact ha
      · refine ih b.length ?_ h rfl
        rw [← hn, List.length_append, List.length_cons]
        omega
    · rw [List.splitOn_eq_singleton hs, List.mem_singleton] at h
      rw [h]
      exact hs

theorem intercalate_newline (l : Text) (ls : List Text) :
    List.intercalate ['\n'] (l :: ls) = l ++ ls.flatMap fun m => '\n' :: m := by
  induction ls generalizing l with
  | nil => simp
  | cons m ls ih =>
    rw [List.intercalate_cons_cons, ih, List.flatMap_cons]
    simp only [List.append_assoc, List.cons_append, List.nil_append]

theorem word_in_line {ls : List Text} {k x y : Text} (hk : k ≠ []) (hnl : '\n' ∉ k)
    (h : List.intercalate ['\n'] ls = x ++ (k ++ y)) :
    ∃ before l after u v, ls = before ++ l :: after ∧ l = u ++ (k ++ v) ∧ u <:+ x ∧
      y = v ++ after.flatMap fun m => '\n' :: m := by
  induction ls generalizing x with
  | nil =>
    have hnil := List.append_eq_nil_iff.mp (List.append_eq_nil_iff.mp h.symm).2
    exact absurd hnil.1 hk
  | cons l ls ih =>
    rw [intercalate_newline] at h
    rcases List.append_eq_append_iff.mp h with ⟨u, rfl, hu⟩ | ⟨u, rfl, hu⟩
    · cases ls with
      | nil =>
        have hnil := List.append_eq_nil_iff.mp (List.append_eq_nil_iff.mp hu.symm).2
        exact absurd hnil.1 hk
      | cons m ls =>
        rw [List.flatMap_cons, List.cons_append] at hu
        cases u with
        | nil =>
          obtain ⟨c, k, rfl⟩ := List.exists_cons_of_ne_nil hk
          obtain rfl := (List.cons.inj hu).1
          exact absurd List.mem_cons_self hnl
        | cons c u =>
          obtain ⟨rfl, hu'⟩ := List.cons.inj hu
          obtain ⟨before, l', after, u', v, hls, hl', hsuffix, hy⟩ :=
            ih ((intercalate_newline m ls).trans hu')
          exact ⟨l :: before, l', after, u', v, by rw [hls]; rfl, hl',
            hsuffix.trans ⟨l ++ ['\n'], by simp⟩, hy⟩
    · rcases List.append_eq_append_iff.mp hu with ⟨v, rfl, hy⟩ | ⟨v, hv, hrest⟩
      · exact ⟨[], x ++ (k ++ v), ls, x, v, rfl, rfl, List.suffix_refl x, hy⟩
      · cases v with
        | nil =>
          rw [List.append_nil] at hv
          exact ⟨[], x ++ u, ls, x, [], rfl, by rw [hv, List.append_nil], List.suffix_refl x,
            hrest.symm⟩
        | cons c v =>
          -- the word would reach over the end of the line
          have hc : c = '\n' := by
            cases ls with
            | nil => cases hrest
            | cons m ls => exact (List.cons.inj hrest).1.symm
          exact absurd (by rw [hv, hc]; simp) hnl

theorem readLines_of_lines {ls : List Text} (h : ∀ l ∈ ls, '\n' ∉ l) :
    readLines (ls.map fun l => l ++ ['\n']).flatten = ls.map fun l => l ++ ['\n'] := by
  have hlines := readLines_flatMap h
  rw [List.flatMap_def] at hlines
  exact hlines

theorem fileLines_of_lines {ls : List Text} (h : ∀ l ∈ ls, '\n' ∉ l) :
    fileLines (ls.map fun l => l ++ ['\n']).flatten = ls := by
  unfold fileLines
  rw [readLines_of_lines h, List.map_map]
  refine List.map_congr_left (fun l hl => ?_) |>.trans (List.map_id ls)
  have hall : ∀ c ∈ l, decide (c ≠ '\n') = true := by
    intro c hc
    rw [decide_eq_true_eq]
    rintro rfl
    exact h l hl hc
  rw [Function.comp_apply, List.takeWhile_append_of_pos hall]
  exact List.append_nil l

end Text

end HaoosLfs
