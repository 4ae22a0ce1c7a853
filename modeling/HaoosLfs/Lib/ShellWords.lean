import HaoosLfs.Lib.Lists
import HaoosLfs.Lib.Text

/-!
# Shell words

Field splitting at blanks, the lines that `grep -A` prints, and reading one word
by the rules for single quotes and backslashes.
-/

namespace HaoosLfs.ShellWords

/-! ### Field splitting -/

/-- The default value of `IFS`. -/
def isIfs (c : Char) : Bool := c = ' ' || c = '\t' || c = '\n'

def words (s : Text) : List Text := (s.splitOnP isIfs).filter fun w => decide (w ≠ [])

def firstWord (s : Text) : Text := s.takeWhile fun c => !isIfs c

def joinLines (ls : List Text) : Text := List.intercalate ['\n'] ls

theorem words_append_cons (a b : Text) {c : Char} (hc : isIfs c) :
    words (a ++ c :: b) = words a ++ words b := by
  unfold words
  rw [List.splitOnP_append_cons a b hc, List.filter_append]

theorem head?_splitOnP (p : Char → Bool) (s : Text) :
    (s.splitOnP p).head? = some (s.takeWhile fun c => !p c) := by
  induction s with
  | nil => rfl
  | cons c s ih =>
    cases hc : p c with
    | true => simp [List.splitOnP_cons_eq_if_modifyHead, hc]
    | false =>
      obtain ⟨w, ws, hw⟩ := List.exists_cons_of_ne_nil (List.splitOnP_ne_nil p s)
      rw [hw, List.head?_cons] at ih
      simp [List.splitOnP_cons_eq_if_modifyHead, hc, hw, Option.some.inj ih]

theorem head?_words {s : Text} (h : firstWord s ≠ []) : (words s).head? = some (firstWord s) := by
  have hhead := head?_splitOnP isIfs s
  unfold words
  cases hs : s.splitOnP isIfs with
  | nil => exact absurd hs (List.splitOnP_ne_nil _ _)
  | cons w ws =>
    rw [hs, List.head?_cons] at hhead
    have hw : w = firstWord s := Option.some.inj hhead
    rw [List.filter_cons_of_pos (by rw [hw]; exact decide_eq_true h), hw]
    rfl

theorem firstWord_append {a : Text} (h : ∀ c ∈ a, isIfs c = false) (b : Text) :
    firstWord (a ++ b) = a ++ firstWord b := by
  unfold firstWord
  exact List.takeWhile_append_of_pos fun c hc => by rw [h c hc]; rfl

theorem words_plain {s : Text} (hne : s ≠ []) (h : ∀ c ∈ s, isIfs c = false) : words s = [s] := by
  have hone : s.splitOnP isIfs = [s] := List.splitOnP_eq_singleton h
  unfold words
  rw [hone]
  exact List.filter_eq_self.mpr fun w hw => decide_eq_true (by rwa [List.mem_singleton.mp hw])

theorem of_mem_words {s w : Text} (hw : w ∈ words s) :
    (∀ c ∈ w, isIfs c = false) ∧ w.Sublist s := by
  induction hn : s.length using Nat.strong_induction_on generalizing s with
  | _ n ih =>
    by_cases hs : ∃ c ∈ s, isIfs c
    · obtain ⟨c, hmem, hc⟩ := hs
      obtain ⟨a, b, rfl⟩ := List.append_of_mem hmem
      rw [words_append_cons a b hc, List.mem_append] at hw
      rw [List.length_append, List.length_cons] at hn
      rcases hw with hw | hw
      · obtain ⟨hblank, hsub⟩ := ih a.length (by omega) hw rfl
        exact ⟨hblank, hsub.trans (List.sublist_append_left _ _)⟩
      · obtain ⟨hblank, hsub⟩ := ih b.length (by omega) hw rfl
        exact ⟨hblank, (hsub.cons c).trans (List.sublist_append_right _ _)⟩
    · have hnone : ∀ c ∈ s, isIfs c = false :=
        fun c hc => Bool.eq_false_iff.mpr fun h => hs ⟨c, hc, h⟩
      by_cases hnil : s = []
      · rw [hnil] at hw
        cases hw
      · rw [words_plain hnil hnone, List.mem_singleton] at hw
        rw [hw]
        exact ⟨hnone, List.Sublist.refl _⟩

theorem not_isIfs_of_mem_words {s w : Text} (hw : w ∈ words s) : ∀ c ∈ w, isIfs c = false :=
  (of_mem_words hw).1

theorem words_eq_self_iff {s : Text} (hne : s ≠ []) :
    words s = [s] ↔ ∀ c ∈ s, isIfs c = false := by
  constructor
  · intro h
    exact not_isIfs_of_mem_words (by rw [h]; exact List.mem_singleton_self s)
  · exact words_plain hne

theorem words_joinLines (ls : List Text) : words (joinLines ls) = ls.flatMap words := by
  unfold joinLines
  induction ls with
  | nil => rfl
  | cons l ls ih =>
    cases ls with
    | nil => simp
    | cons m ls =>
      rw [List.intercalate_cons_cons, List.append_assoc, List.singleton_append,
        words_append_cons _ _ rfl, ih]
      rfl

theorem firstWord_joinLines (l : Text) (ls : List Text) :
    firstWord (joinLines (l :: ls)) = firstWord l := by
  unfold joinLines
  cases ls with
  | nil => simp
  | cons m ls =>
    rw [List.intercalate_cons_cons, List.append_assoc, List.singleton_append]
    unfold firstWord
    by_cases h : ∀ c ∈ l, !isIfs c
    · rw [List.takeWhile_append_of_pos h, List.takeWhile_eq_self_iff.mpr h,
        List.takeWhile_cons_of_neg (by decide), List.append_nil]
    · rw [List.takeWhile_append, if_neg]
      intro hlen
      exact h (List.takeWhile_eq_self_iff.mp
        ((List.takeWhile_prefix _).eq_of_length hlen))

/-! ### Lines after a match -/

/-- The lines that `grep -A n` prints, without the `--` between two groups; `more`
lines are still to be printed after the last match. -/
def grepAfter {α : Type} (n : ℕ) (p : α → Bool) : ℕ → List α → List α
  | _, [] => []
  | more, l :: ls =>
    if p l then l :: grepAfter n p n ls
    else
      match more with
      | 0 => grepAfter n p 0 ls
      | more + 1 => l :: grepAfter n p more ls

section
variable {α : Type} {n : ℕ} {p : α → Bool}

def pendingAfter (n : ℕ) (p : α → Bool) : ℕ → List α → ℕ
  | more, [] => more
  | more, l :: ls => pendingAfter n p (if p l then n else more - 1) ls

theorem pendingAfter_append (more : ℕ) (xs ys : List α) :
    pendingAfter n p more (xs ++ ys) = pendingAfter n p (pendingAfter n p more xs) ys := by
  induction xs generalizing more with
  | nil => rfl
  | cons x xs ih => exact ih _

theorem grepAfter_append (more : ℕ) (xs ys : List α) :
    grepAfter n p more (xs ++ ys) =
      grepAfter n p more xs ++ grepAfter n p (pendingAfter n p more xs) ys := by
  induction xs generalizing more with
  | nil => rfl
  | cons x xs ih =>
    simp only [List.cons_append, grepAfter, pendingAfter]
    by_cases hx : p x
    · simp only [hx, if_true, ih, List.cons_append]
    · cases more with
      | zero => simp only [hx, Bool.false_eq_true, if_false, ih, Nat.zero_sub]
      | succ more =>
        simp only [hx, Bool.false_eq_true, if_false, ih, List.cons_append, Nat.add_sub_cancel]

theorem grepAfter_subset (more : ℕ) (xs : List α) : grepAfter n p more xs ⊆ xs := by
  induction xs generalizing more with
  | nil => exact List.Subset.refl _
  | cons x xs ih =>
    cases hx : p x with
    | true =>
      simp only [grepAfter, hx, if_true]
      exact List.cons_subset_cons _ (ih n)
    | false =>
      cases more with
      | zero =>
        simp only [grepAfter, hx, Bool.false_eq_true, if_false]
        exact fun l hl => List.mem_cons_of_mem _ (ih 0 hl)
      | succ more =>
        simp only [grepAfter, hx, Bool.false_eq_true, if_false]
        exact List.cons_subset_cons _ (ih more)

theorem grepAfter_map {β : Type} (f : β → α) (more : ℕ) (xs : List β) :
    grepAfter n p more (xs.map f) = (grepAfter n (fun b => p (f b)) more xs).map f := by
  induction xs generalizing more with
  | nil => rfl
  | cons x xs ih =>
    cases hx : p (f x) with
    | true => simp only [List.map_cons, grepAfter, hx, if_true, ih]
    | false =>
      cases more with
      | zero => simp only [List.map_cons, grepAfter, hx, Bool.false_eq_true, if_false, ih]
      | succ more => simp only [List.map_cons, grepAfter, hx, Bool.false_eq_true, if_false, ih]

/-- A line is printed when it matches or one of the `n` lines above it does. -/
def Shown (n : ℕ) (p : α → Bool) (above : List α) (l : α) : Prop :=
  p l ∨ ∃ m ∈ above.reverse.take n, p m

theorem shown_map {β : Type} (f : β → α) (above : List β) (l : β) :
    Shown n p (above.map f) (f l) ↔ Shown n (fun b => p (f b)) above l := by
  unfold Shown
  rw [← List.map_reverse, ← List.map_take]
  constructor
  · rintro (h | ⟨m, hm, hp⟩)
    · exact .inl h
    · obtain ⟨b, hb, rfl⟩ := List.mem_map.mp hm
      exact .inr ⟨b, hb, hp⟩
  · rintro (h | ⟨b, hb, hp⟩)
    · exact .inl h
    · exact .inr ⟨f b, List.mem_map_of_mem hb, hp⟩

theorem lt_pendingAfter_iff (xs : List α) (k : ℕ) :
    k < pendingAfter n p 0 xs ↔ ∃ m ∈ xs.reverse.take (n - k), p m := by
  induction xs using List.reverseRecOn generalizing k with
  | nil => simp [pendingAfter]
  | append_singleton xs x ih =>
    rw [pendingAfter_append, List.reverse_append, List.reverse_singleton, List.singleton_append]
    by_cases hk : k < n
    · obtain ⟨j, hj⟩ : ∃ j, n - k = j + 1 := ⟨n - k - 1, by omega⟩
      have hj' : n - (k + 1) = j := by omega
      have hstep := ih (k + 1)
      rw [hj'] at hstep
      rw [hj, List.take_succ_cons]
      by_cases hx : p x
      · simp [pendingAfter, hx, hk]
      · simp only [pendingAfter, hx, Bool.false_eq_true, if_false, List.mem_cons,
          exists_eq_or_imp, false_or, ← hstep]
        omega
    · have h0 : n - k = 0 := by omega
      have hstep := ih k
      rw [h0] at hstep ⊢
      simp only [List.take_zero, List.not_mem_nil, false_and, exists_false, iff_false] at hstep ⊢
      by_cases hx : p x
      · simp only [pendingAfter, hx, if_true]
        exact hk
      · simp only [pendingAfter, hx, Bool.false_eq_true, if_false]
        omega

theorem grepAfter_cons (xs : List α) (l : α) (ls : List α) :
    (Shown n p xs l → ∃ more, grepAfter n p (pendingAfter n p 0 xs) (l :: ls) =
        l :: grepAfter n p more ls) ∧
      (¬ Shown n p xs l →
        grepAfter n p (pendingAfter n p 0 xs) (l :: ls) = grepAfter n p 0 ls) := by
  have hpos := lt_pendingAfter_iff (n := n) (p := p) xs 0
  rw [Nat.sub_zero] at hpos
  unfold Shown
  rw [← hpos]
  by_cases hl : p l
  · exact ⟨fun _ => ⟨n, by simp [grepAfter, hl]⟩, fun h => absurd (.inl hl) h⟩
  · cases hm : pendingAfter n p 0 xs with
    | zero => simp [grepAfter, hl]
    | succ more =>
      exact ⟨fun _ => ⟨more, by simp [grepAfter, hl]⟩, fun h => absurd (.inr (Nat.succ_pos _)) h⟩

theorem filter_grepAfter_eq_nil {q : α → Bool} (xs : List α) :
    (grepAfter n p 0 xs).filter q = [] ↔
      ∀ above l below, xs = above ++ l :: below → q l → ¬ Shown n p above l := by
  induction xs using List.reverseRecOn with
  | nil => simp [grepAfter]
  | append_singleton xs x ih =>
    rw [forall_split_append_singleton (P := fun above l => q l → ¬ Shown n p above l), ← ih,
      grepAfter_append, List.filter_append, List.append_eq_nil_iff]
    refine and_congr_right fun _ => ?_
    obtain ⟨hshown, hhidden⟩ := grepAfter_cons (n := n) (p := p) xs x []
    by_cases hs : Shown n p xs x
    · obtain ⟨more, hm⟩ := hshown hs
      rw [hm]
      simp [grepAfter, hs]
    · rw [hhidden hs]
      simp [grepAfter, hs]

theorem head?_grepAfter_iff {q : α → Bool} {xs ys : List α} {l : α} (hx : l ∉ xs) (hy : l ∉ ys) :
    ((grepAfter n p 0 (xs ++ l :: ys)).filter q).head? = some l ↔
      q l ∧ Shown n p xs l ∧
        ∀ above m below, xs = above ++ m :: below → q m → ¬ Shown n p above m := by
  have hno : ∀ {zs : List α} (more : ℕ), l ∉ zs →
      ((grepAfter n p more zs).filter q).head? ≠ some l :=
    fun more hz he => hz (grepAfter_subset _ _ (List.mem_of_mem_filter (List.mem_of_mem_head? he)))
  rw [← filter_grepAfter_eq_nil, grepAfter_append, List.filter_append]
  by_cases hnil : (grepAfter n p 0 xs).filter q = []
  · rw [hnil, List.nil_append]
    obtain ⟨hshown, hhidden⟩ := grepAfter_cons (n := n) (p := p) xs l ys
    by_cases hs : Shown n p xs l
    · obtain ⟨more, hm⟩ := hshown hs
      rw [hm]
      by_cases hq : q l
      · simp [hq, hs]
      · rw [List.filter_cons_of_neg hq]
        exact iff_of_false (hno more hy) (fun h => hq h.1)
    · rw [hhidden hs]
      exact iff_of_false (hno 0 hy) (fun h => hs h.2.1)
  · refine iff_of_false ?_ (fun h => hnil h.2.2)
    obtain ⟨m, ms, hm⟩ := List.exists_cons_of_ne_nil hnil
    have hmx : m ≠ l := by
      rintro rfl
      refine hno 0 hx ?_
      rw [hm]
      rfl
    rw [hm]
    simpa using hmx

end

/-! ### Reading a word -/

/-- Outside quotes, inside single quotes, or after a backslash outside quotes. -/
inductive Quoting where
  | plain
  | quoted
  | escaped
  deriving DecidableEq

def endsWord (c : Char) : Bool := c ∈ [' ', '\t', '\n', ';', '&', '|', '<', '>', '(', ')']

/-- Outside single quotes these do not stand for themselves. -/
def isExpansion (c : Char) : Bool := c ∈ ['"', '$', '\x60']

/-- The value of the word that a text starts with, and the text after it. There is
none when a quote stays open, or when other rules than those for single quotes and
backslashes are needed. -/
def readWord : Quoting → Text → Option (Text × Text)
  | .plain, [] => some ([], [])
  | .quoted, [] => none
  | .escaped, [] => none
  | .plain, c :: s =>
    if c = '\'' then readWord .quoted s
    else if c = '\\' then readWord .escaped s
    else if endsWord c then some ([], c :: s)
    else if isExpansion c then none
    else (readWord .plain s).map fun r => (c :: r.1, r.2)
  | .quoted, c :: s =>
    if c = '\'' then readWord .plain s
    else (readWord .quoted s).map fun r => (c :: r.1, r.2)
  | .escaped, c :: s =>
    if c = '\n' then readWord .plain s
    else (readWord .plain s).map fun r => (c :: r.1, r.2)

/-- Each apostrophe as the four characters that stand for it inside single quotes. -/
def quote (s : Text) : Text := s.flatMap fun c => if c = '\'' then "'\\''".toList else [c]

/-- A text of which some characters are quoted and the others stand as they are. -/
def emit (ms : List (Bool × Char)) : Text := ms.flatMap fun m => if m.1 then quote [m.2] else [m.2]

theorem emit_append (ms ns : List (Bool × Char)) : emit (ms ++ ns) = emit ms ++ emit ns :=
  List.flatMap_append

theorem emit_quoted (s : Text) : emit (s.map (Prod.mk true)) = quote s := by
  unfold emit quote
  rw [List.flatMap_map]
  exact List.flatMap_congr fun c _ => by simp

theorem emit_raw (s : Text) : emit (s.map (Prod.mk false)) = s := by
  unfold emit
  rw [List.flatMap_map]
  exact List.flatMap_singleton' s

theorem readWord_emit {ms : List (Bool × Char)} (h : (false, '\'') ∉ ms) (t : Text) :
    readWord .quoted (emit ms ++ t) =
      (readWord .quoted t).map fun r => (ms.map Prod.snd ++ r.1, r.2) := by
  induction ms with
  | nil => simp [emit]
  | cons m ms ih =>
    obtain ⟨b, c⟩ := m
    rw [List.mem_cons, not_or] at h
    have hms := ih h.2
    have hcons : emit ((b, c) :: ms) ++ t = emit [(b, c)] ++ (emit ms ++ t) := by
      rw [← List.append_assoc, ← emit_append]
      rfl
    rw [hcons]
    by_cases hc : c = '\''
    · cases b with
      | false => exact absurd (by rw [hc]) h.1
      | true =>
        subst hc
        show (readWord .quoted (emit ms ++ t)).map (fun r => ('\'' :: r.1, r.2)) = _
        rw [hms, Option.map_map]
        rfl
    · have hone : emit [(b, c)] = [c] := by
        cases b with
        | false => rfl
        | true => simp [emit, quote, hc]
      rw [hone, List.singleton_append, readWord, if_neg hc, hms, Option.map_map]
      rfl

/-- A pending backslash counts for one character that is still to be read. -/
def Quoting.pending : Quoting → ℕ
  | .escaped => 1
  | _ => 0

theorem readWord_step {q : Quoting} {c : Char} {s v r : Text}
    (h : readWord q (c :: s) = some (v, r)) :
    q = .plain ∧ r = c :: s ∨
      ∃ q' v', readWord q' s = some (v', r) ∧
        v.length + q'.pending ≤ v'.length + 1 + q.pending := by
  have hcons : ∀ {q' : Quoting}, q'.pending = 0 →
      (readWord q' s).map (fun r => (c :: r.1, r.2)) = some (v, r) →
      ∃ q' v', readWord q' s = some (v', r) ∧
        v.length + q'.pending ≤ v'.length + 1 + q.pending := by
    intro q' hq' hm
    obtain ⟨⟨v', r'⟩, hv, he⟩ := Option.map_eq_some_iff.mp hm
    obtain ⟨rfl, rfl⟩ := Prod.mk.inj he
    refine ⟨q', v', hv, ?_⟩
    simp only [hq', List.length_cons]
    omega
  cases q with
  | plain =>
    rw [readWord] at h
    split_ifs at h with hq hb he hx
    · exact .inr ⟨.quoted, v, h, by simp only [Quoting.pending]; omega⟩
    · exact .inr ⟨.escaped, v, h, by simp only [Quoting.pending]; omega⟩
    · obtain ⟨-, rfl⟩ := Prod.mk.inj (Option.some.inj h)
      exact .inl ⟨rfl, rfl⟩
    · exact .inr (hcons rfl h)
  | quoted =>
    rw [readWord] at h
    split_ifs at h with hq
    · exact .inr ⟨.plain, v, h, by simp only [Quoting.pending]; omega⟩
    · exact .inr (hcons rfl h)
  | escaped =>
    rw [readWord] at h
    split_ifs at h with hn
    · exact .inr ⟨.plain, v, h, by simp only [Quoting.pending]; omega⟩
    · exact .inr (hcons rfl h)

theorem length_rest {q : Quoting} {s v r : Text} (h : readWord q s = some (v, r)) :
    r.length ≤ s.length := by
  induction s generalizing q v with
  | nil =>
    cases q with
    | plain =>
      obtain ⟨-, rfl⟩ := Prod.mk.inj (Option.some.inj h)
      exact le_rfl
    | quoted => cases h
    | escaped => cases h
  | cons c s ih =>
    rcases readWord_step h with ⟨-, rfl⟩ | ⟨q', v', hv, -⟩
    · exact le_rfl
    · exact (ih hv).trans (Nat.le_succ _)

theorem length_rest_quoted {s v r : Text} (h : readWord .quoted s = some (v, r)) :
    r.length < s.length := by
  cases s with
  | nil => cases h
  | cons c s =>
    rcases readWord_step h with ⟨hq, -⟩ | ⟨q', v', hv, -⟩
    · cases hq
    · exact Nat.lt_succ_of_le (length_rest hv)

/-- The four characters of a quoted apostrophe yield one, wherever they stand; after
a backslash they yield two. -/
theorem readWord_apostrophe {q : Quoting} {s v r : Text}
    (h : readWord q (quote ['\''] ++ s) = some (v, r)) :
    ∃ v', readWord .quoted s = some (v', r) ∧ v.length = v'.length + 1 + q.pending := by
  cases q with
  | plain =>
    obtain ⟨⟨v', r'⟩, hv, he⟩ := Option.map_eq_some_iff.mp
      (show (readWord .quoted s).map (fun r => ('\\' :: r.1, r.2)) = some (v, r) from h)
    obtain ⟨rfl, rfl⟩ := Prod.mk.inj he
    exact ⟨v', hv, rfl⟩
  | quoted =>
    obtain ⟨⟨v', r'⟩, hv, he⟩ := Option.map_eq_some_iff.mp
      (show (readWord .quoted s).map (fun r => ('\'' :: r.1, r.2)) = some (v, r) from h)
    obtain ⟨rfl, rfl⟩ := Prod.mk.inj he
    exact ⟨v', hv, rfl⟩
  | escaped =>
    have hs : ((readWord .quoted s).map (fun r => ('\'' :: r.1, r.2))).map
        (fun r => ('\'' :: r.1, r.2)) = some (v, r) := h
    rw [Option.map_map] at hs
    obtain ⟨⟨v', r'⟩, hv, he⟩ := Option.map_eq_some_iff.mp hs
    obtain ⟨rfl, rfl⟩ := Prod.mk.inj he
    exact ⟨v', hv, rfl⟩

theorem length_readWord {ms : List (Bool × Char)} {q : Quoting} {t v : Text}
    (h : readWord q (emit ms ++ '\'' :: '\n' :: t) = some (v, '\n' :: t)) :
    v.length ≤ ms.length + q.pending := by
  induction ms generalizing q v with
  | nil =>
    cases q with
    | plain =>
      -- the closing quote opens one, which ends later than here
      have hlt := length_rest_quoted
        (show readWord .quoted ('\n' :: t) = some (v, '\n' :: t) from h)
      omega
    | quoted =>
      obtain ⟨rfl, -⟩ := Prod.mk.inj (Option.some.inj
        (show some (([] : Text), '\n' :: t) = some (v, '\n' :: t) from h))
      exact Nat.zero_le _
    | escaped =>
      obtain ⟨rfl, -⟩ := Prod.mk.inj (Option.some.inj
        (show some (['\''], '\n' :: t) = some (v, '\n' :: t) from h))
      exact le_rfl
  | cons m ms ih =>
    obtain ⟨b, c⟩ := m
    have hcons : emit ((b, c) :: ms) = emit [(b, c)] ++ emit ms := emit_append [(b, c)] ms
    rw [hcons, List.append_assoc] at h
    by_cases hc : b = true ∧ c = '\''
    · obtain ⟨rfl, rfl⟩ := hc
      obtain ⟨v', hv, hlen⟩ := readWord_apostrophe h
      have := ih hv
      simp only [Quoting.pending] at this
      rw [List.length_cons]
      omega
    · have hone : emit [(b, c)] = [c] := by
        cases b with
        | false => rfl
        | true => simp [emit, quote, (not_and.mp hc) rfl]
      rw [hone] at h
      rw [List.singleton_append] at h
      rcases readWord_step h with ⟨-, hr⟩ | ⟨q', v', hv, hlen⟩
      · have := congrArg List.length hr
        simp only [List.length_cons, List.length_append] at this
        omega
      · have := ih hv
        rw [List.length_cons]
        omega

/-- Read inside quotes up to the closing one, a text is a single word with a value at
least as long exactly when all its apostrophes are quoted and the value is the text. -/
theorem readWord_emit_iff {ms : List (Bool × Char)} {w : Text} (hlen : ms.length ≤ w.length)
    (t : Text) :
    readWord .quoted (emit ms ++ '\'' :: '\n' :: t) = some (w, '\n' :: t) ↔
      (false, '\'') ∉ ms ∧ ms.map Prod.snd = w := by
  have hclean : (false, '\'') ∉ ms →
      readWord .quoted (emit ms ++ '\'' :: '\n' :: t) = some (ms.map Prod.snd, '\n' :: t) := by
    intro h
    rw [readWord_emit h]
    show some (ms.map Prod.snd ++ [], '\n' :: t) = _
    rw [List.append_nil]
  constructor
  · intro h
    by_cases hm : (false, '\'') ∈ ms
    · -- the first apostrophe that stands as it is gets lost
      obtain ⟨before, after, rfl, hb⟩ := List.eq_append_cons_of_mem hm
      have hsplit : emit (before ++ (false, '\'') :: after) = emit before ++ '\'' :: emit after :=
        emit_append before _
      rw [hsplit, List.append_assoc, readWord_emit hb] at h
      obtain ⟨⟨v, r⟩, hv, he⟩ := Option.map_eq_some_iff.mp h
      obtain ⟨rfl, rfl⟩ := Prod.mk.inj he
      have hle := length_readWord
        (show readWord .plain (emit after ++ '\'' :: '\n' :: t) = some (v, '\n' :: t) from hv)
      simp only [List.length_append, List.length_cons, List.length_map, Quoting.pending] at hlen hle
      omega
    · rw [hclean hm] at h
      exact ⟨hm, (Prod.mk.inj (Option.some.inj h)).1⟩
  · rintro ⟨hm, rfl⟩
    exact hclean hm

end HaoosLfs.ShellWords
