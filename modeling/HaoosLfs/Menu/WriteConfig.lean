import HaoosLfs.Lib.TreeWalk
import HaoosLfs.Menu.Choices
import HaoosLfs.Menu.Finalize
import HaoosLfs.Menu.ConfigFile

/-!
# Writing a configuration (`kconfiglib.py:1395-1560, 1793-1840`)

`_config_contents` walks through the menu tree and writes each symbol where it is first
defined. A reader finds the values of all symbols that are to be written, in the order of
their definitions, and nothing else.
-/

namespace HaoosLfs.Menu
open Memo

/-- After `_finalize_tree` there are no `if` nodes; `prompt` is the text of the prompt. -/
structure MenuNode where
  item : NodeItem
  prompt : Text
  dep : Expr
  visibility : Expr

structure MenuTree (ι : Type) where
  nodes : ι → MenuNode
  links : Links ι
  topNode : ι
  tree : Forest ι
  linked : links.Holds topNode (links.children topNode) tree
  topParent : links.parent topNode = none
  topNext : links.next topNode = none

def MenuNode.symbol (node : MenuNode) : Option Text :=
  match node.item with
  | .symbol name => some name
  | _ => none

/-- `_visited`, the flag `after_end_comment` and the `chunks`. -/
structure Writer where
  visited : List Text
  afterEndComment : Bool
  chunks : List Text

def Writer.heading (w : Writer) (title : Text) : Writer :=
  { w with
    afterEndComment := false
    chunks := w.chunks ++ ["\n#\n# ".toList ++ (title ++ "\n#\n".toList)] }

def Writer.endOf (w : Writer) (title : Text) : Writer :=
  { w with
    afterEndComment := true
    chunks := w.chunks ++ ["# end of ".toList ++ (title ++ "\n".toList)] }

/-- A blank line stands before the first symbol after an end comment. -/
def Writer.symbol (w : Writer) (configString : Text) : Writer :=
  if configString = [] then w
  else
    { w with
      afterEndComment := false
      chunks := w.chunks ++ (if w.afterEndComment then [['\n']] else []) ++ [configString] }

section

variable {ι : Type} [DecidableEq ι] (k : Kconfig) (u : Inputs) (t : MenuTree ι)

def symbolString (name : Text) : Prog Text := do
  let val ← get (.str (.var name))
  pure (configString name (k.symbol name).origType val)

def enterNode (w : Writer) (v : ι) : Prog Writer :=
  match (t.nodes v).item with
  | .symbol name =>
    if name ∈ w.visited then pure w
    else do
      let s ← symbolString k name
      pure ({ w with visited := w.visited ++ [name] }.symbol s)
  | item => do
    let dep ← exprValue k u (t.nodes v).dep
    if dep = 0 then pure w
    else if item = .menu then do
      let vis ← exprValue k u (t.nodes v).visibility
      pure (if vis ≠ 0 then w.heading (t.nodes v).prompt else w)
    else pure (if item = .comment then w.heading (t.nodes v).prompt else w)

def leaveNode (w : Writer) (v : ι) : Prog Writer := do
  if (t.nodes v).item = .menu then
    let dep ← exprValue k u (t.nodes v).dep
    if dep = 0 then pure w
    else do
      let vis ← exprValue k u (t.nodes v).visibility
      pure (if vis ≠ 0 ∧ v ≠ t.topNode then w.endOf (t.nodes v).prompt else w)
  else pure w

def writeMove (w : Writer) : Move ι → Prog Writer
  | .enter v => enterNode k u t w v
  | .leave v => leaveNode k u t w v

/-- `_config_contents`; `fuel` bounds the steps of the walk. -/
def configContents (header : Text) (fuel : ℕ) : Prog (Option Text) :=
  match t.links.walk fuel false t.topNode with
  | some moves => do
    let w ← moves.foldlM (writeMove k u t) ⟨[], false, [header]⟩
    pure (some w.chunks.flatten)
  | none => pure none

end

/-- The default of `write_config`. -/
def defaultHeader : Text :=
  "# Generated by Kconfiglib (https://github.com/ulfalizer/Kconfiglib)\n".toList

/-! ### Reading what is written -/

def newlines : Text → Text
  | [] => []
  | [c] => [if c = '\r' then '\n' else c]
  | c :: d :: s =>
    if c = '\r' then if d = '\n' then '\n' :: newlines s else '\n' :: newlines (d :: s)
    else c :: newlines (d :: s)

theorem newlines_eq_self {s : Text} (h : '\r' ∉ s) : newlines s = s := by
  induction s with
  | nil => rfl
  | cons c s ih =>
    rw [List.mem_cons, not_or] at h
    cases s with
    | nil => rw [newlines, if_neg (Ne.symm h.1)]
    | cons d s => rw [newlines, if_neg (Ne.symm h.1), ih h.2]

def configLines (text : Text) : List Text := Text.fileLines (newlines text)

def joinLines (lines : List Text) : Text := lines.flatMap fun l => l ++ ['\n']

theorem configLines_joinLines {lines : List Text} (hn : ∀ l ∈ lines, '\n' ∉ l)
    (hr : ∀ l ∈ lines, '\r' ∉ l) : configLines (joinLines lines) = lines := by
  have hnr : '\r' ∉ joinLines lines := by
    simp only [joinLines, List.mem_flatMap, List.mem_append, not_exists, not_and, not_or]
    exact fun l hl => ⟨hr l hl, by decide⟩
  rw [configLines, newlines_eq_self hnr, Text.fileLines, joinLines, Text.readLines_flatMap hn,
    List.map_map]
  refine (List.map_congr_left fun l hl => ?_).trans (List.map_id _)
  have h := Text.fileLines_cons (hn l hl) []
  rw [Text.fileLines, Text.readLines_append (hn l hl), List.map_cons, List.cons.injEq] at h
  exact h.1

/-- `text` is lines that assign `as`; all other lines are empty or comments. -/
def Reads (k : Kconfig) (text : Text) (as : List (Text × Text)) : Prop :=
  ∃ lines : List Text, text = joinLines lines ∧ (∀ l ∈ lines, '\n' ∉ l ∧ '\r' ∉ l) ∧
    (lines.map (readLine k)).filter (· ≠ .other) = as.map fun a => .assign a.1 a.2

def Silent (k : Kconfig) (line : Text) : Prop :=
  '\n' ∉ line ∧ '\r' ∉ line ∧ readLine k line = .other

section

variable {k : Kconfig}

theorem Reads.append {a b : Text} {as bs : List (Text × Text)} (ha : Reads k a as)
    (hb : Reads k b bs) : Reads k (a ++ b) (as ++ bs) := by
  obtain ⟨la, rfl, hla, has⟩ := ha
  obtain ⟨lb, rfl, hlb, hbs⟩ := hb
  refine ⟨la ++ lb, by simp [joinLines], fun l hl => ?_, ?_⟩
  · rcases List.mem_append.mp hl with h | h
    · exact hla l h
    · exact hlb l h
  · rw [List.map_append, List.filter_append, has, hbs, List.map_append]

theorem reads_silent {lines : List Text} (h : ∀ l ∈ lines, Silent k l) :
    Reads k (joinLines lines) [] := by
  refine ⟨lines, rfl, fun l hl => ⟨(h l hl).1, (h l hl).2.1⟩, ?_⟩
  rw [List.map_nil, List.filter_eq_nil_iff]
  intro x hx
  obtain ⟨l, hl, rfl⟩ := List.mem_map.mp hx
  simp [(h l hl).2.2]

theorem silent_of_comment {line : Text} (hn : '\n' ∉ line) (hr : '\r' ∉ line)
    (hset : setMatch (PyInt.rstrip line) = none) (hunset : unsetMatch (PyInt.rstrip line) = none) :
    Silent k line := by
  refine ⟨hn, hr, ?_⟩
  unfold readLine
  dsimp only
  rw [hset]
  dsimp only
  rw [hunset]

theorem silent_nil : Silent k [] :=
  silent_of_comment (by decide) (by decide) (by decide) (by decide)

theorem silent_hash : Silent k ['#'] :=
  silent_of_comment (by decide) (by decide) (by decide) (by decide)

theorem reads_defaultHeader : Reads k defaultHeader [] := by
  have h : defaultHeader = joinLines
      ["# Generated by Kconfiglib (https://github.com/ulfalizer/Kconfiglib)".toList] := rfl
  rw [h]
  refine reads_silent fun l hl => ?_
  rw [List.mem_singleton.mp hl]
  refine silent_of_comment ?_ ?_ ?_ ?_
  · decide +kernel
  · decide +kernel
  · decide +kernel
  · decide +kernel

theorem Reads.heading {w : Writer} {as : List (Text × Text)} {title : Text}
    (h : Reads k w.chunks.flatten as) (ht : Silent k ("# ".toList ++ title)) :
    Reads k (w.heading title).chunks.flatten as := by
  have hlines : "\n#\n# ".toList ++ (title ++ "\n#\n".toList) =
      joinLines [[], ['#'], "# ".toList ++ title, ['#']] := by
    simp [joinLines]
  have hnew : Reads k (joinLines [[], ['#'], "# ".toList ++ title, ['#']]) [] := by
    refine reads_silent fun l hl => ?_
    simp only [List.mem_cons, List.not_mem_nil, or_false] at hl
    rcases hl with rfl | rfl | rfl | rfl
    · exact silent_nil
    · exact silent_hash
    · exact ht
    · exact silent_hash
  have happ := h.append hnew
  rw [List.append_nil] at happ
  rw [Writer.heading, List.flatten_append, List.flatten_singleton, hlines]
  exact happ

theorem Reads.symbol {w : Writer} {as bs : List (Text × Text)} {s : Text}
    (h : Reads k w.chunks.flatten as) (hs : Reads k s bs) :
    Reads k (w.symbol s).chunks.flatten (as ++ bs) := by
  by_cases hnil : s = []
  · have happ := h.append hs
    rw [hnil, List.append_nil] at happ
    rwa [Writer.symbol, if_pos hnil]
  · rw [Writer.symbol, if_neg hnil]
    have hline : Reads k (joinLines [[]]) [] :=
      reads_silent fun l hl => List.mem_singleton.mp hl ▸ silent_nil
    have hnone : Reads k (joinLines []) [] := reads_silent (by simp)
    have hblank : Reads k (if w.afterEndComment then [['\n']] else []).flatten [] := by
      split_ifs
      · exact hline
      · exact hnone
    have happ := (h.append hblank).append hs
    rw [List.append_nil] at happ
    rwa [List.flatten_append, List.flatten_append, List.flatten_cons, List.flatten_nil,
      List.append_nil]

theorem Reads.endOf {w : Writer} {as : List (Text × Text)} {title : Text}
    (h : Reads k w.chunks.flatten as) (ht : Silent k ("# end of ".toList ++ title)) :
    Reads k (w.endOf title).chunks.flatten as := by
  have hlines : "# end of ".toList ++ (title ++ "\n".toList) =
      joinLines ["# end of ".toList ++ title] := by
    simp [joinLines]
  have hnew : Reads k (joinLines ["# end of ".toList ++ title]) [] := by
    refine reads_silent fun l hl => ?_
    rw [List.mem_singleton.mp hl]
    exact ht
  have happ := h.append hnew
  rw [List.append_nil] at happ
  rw [Writer.endOf, List.flatten_append, List.flatten_singleton, hlines]
  exact happ

end

/-! ### What a configuration holds -/

def orderedUnique (l : List Text) : List Text := l.reverse.dedup.reverse

theorem orderedUnique_concat (l : List Text) (x : Text) :
    orderedUnique (l ++ [x]) =
      if x ∈ orderedUnique l then orderedUnique l else orderedUnique l ++ [x] := by
  have hmem : x ∈ orderedUnique l ↔ x ∈ l.reverse := by simp [orderedUnique]
  rw [orderedUnique, List.reverse_append, List.reverse_singleton, List.singleton_append]
  split_ifs with h
  · rw [List.dedup_cons_of_mem (hmem.mp h), orderedUnique]
  · rw [List.dedup_cons_of_notMem fun hx => h (hmem.mpr hx), List.reverse_cons, orderedUnique]

/-- The `unique_defined_syms` are the symbols of the tree in the order of their first nodes. -/
def MenuTree.Lists {ι : Type} (t : MenuTree ι) (k : Kconfig) : Prop :=
  orderedUnique (t.tree.preorder.filterMap fun v => (t.nodes v).symbol) = k.syms.map Prod.fst

instance {ι : Type} (t : MenuTree ι) (k : Kconfig) : Decidable (t.Lists k) :=
  inferInstanceAs (Decidable (_ = _))

def strIn (env : Env) (name : Text) : Text × Bool := env (.str (.var name))

def written (env : Env) (name : Text) : Option (Text × Text) :=
  if (strIn env name).2 then some (name, (strIn env name).1) else none

/-- Names are words, a value that is written fits on a line, and the titles of menus and
comments stay comments. -/
structure Writable {ι : Type} (k : Kconfig) (t : MenuTree ι) (env : Env) : Prop where
  words : ∀ name ∈ k.syms.map Prod.fst, IsWord name
  values : ∀ name ∈ k.syms.map Prod.fst, (strIn env name).2 = true →
    ¬ isTri (k.symbol name).origType → Clean (k.symbol name).origType (strIn env name).1
  titles : ∀ v ∈ t.tree.preorder, (t.nodes v).item = .menu ∨ (t.nodes v).item = .comment →
    Silent k ("# ".toList ++ (t.nodes v).prompt) ∧
      Silent k ("# end of ".toList ++ (t.nodes v).prompt)

section

variable {k : Kconfig} {u : Inputs} {env : Env}

theorem clean_triToStr {type : SymbolType} {v : ℕ} (ht : isTri type)
    (hv : type ≠ .tristate → v ≠ 1) : Clean type (triToStr v) := by
  unfold triToStr
  cases type with
  | bool =>
    have h1 : v ≠ 1 := hv (by decide)
    split_ifs
    · exact .inl rfl
    · exact .inr rfl
  | tristate =>
    split_ifs
    · exact .inl rfl
    · exact .inr (.inl rfl)
    · exact .inr (.inr rfl)
  | unknown => cases ht
  | string => cases ht
  | int => cases ht
  | hex => cases ht

theorem Solves.str_of_isTri (h : Solves k u env) {name : Text}
    (ht : isTri (k.symbol name).origType) :
    (strIn env name).1 = triToStr (triIn env (.var name)) := by
  have heq : strIn env name = (strValue k u (.var name)).value env := h.eq _
  have htype : (k.symbol name).origType = .bool ∨ (k.symbol name).origType = .tristate := by
    simpa [isTri] using ht
  rw [heq]
  rcases htype with hb | hb <;> simp only [strValue, hb, Comp.value_bind] <;> rfl

theorem Solves.type_of_written (h : Solves k u env) {name : Text}
    (hw : (strIn env name).2 = true) : (k.symbol name).origType ≠ .unknown := by
  intro ht
  have heq : strIn env name = (strValue k u (.var name)).value env := h.eq _
  rw [heq] at hw
  simp only [strValue, ht] at hw
  cases hw

theorem Writable.reads_symbol {ι : Type} {t : MenuTree ι} (hw : Writable k t env)
    (h : Solves k u env) {name : Text} (hname : name ∈ k.syms.map Prod.fst) :
    Reads k (configString name (k.symbol name).origType (strIn env name))
      (written env name).toList := by
  unfold written
  split_ifs with hwr
  · have hclean : Clean (k.symbol name).origType (strIn env name).1 := by
      by_cases ht : isTri (k.symbol name).origType
      · rw [h.str_of_isTri ht]
        exact clean_triToStr ht (h.bounded (.tri (.var name))).2
      · exact hw.values name hname hwr ht
    obtain ⟨line, hline, hn, hr, hread⟩ :=
      readLine_configString (hw.words name hname) hname (h.type_of_written hwr) hclean
    have hval : strIn env name = ((strIn env name).1, true) := Prod.ext rfl hwr
    rw [hval, hline]
    refine ⟨[line], by simp [joinLines], fun l hl => ?_, ?_⟩
    · rw [List.mem_singleton.mp hl]
      exact ⟨hn, hr⟩
    · rw [List.map_singleton, hread]
      rfl
  · rw [Bool.not_eq_true] at hwr
    rw [configString, hwr]
    exact ⟨[], rfl, by simp, rfl⟩

def Wrote (k : Kconfig) (env : Env) (w : Writer) : Prop :=
  Reads k w.chunks.flatten (w.visited.filterMap (written env))

variable {ι : Type} {t : MenuTree ι}

theorem enterNode_other {w : Writer} {v : ι} (hs : (t.nodes v).symbol = none) :
    (enterNode k u t w v).value env = w ∨
      (((t.nodes v).item = .menu ∨ (t.nodes v).item = .comment) ∧
        (enterNode k u t w v).value env = w.heading (t.nodes v).prompt) := by
  unfold MenuNode.symbol at hs
  unfold enterNode
  cases hi : (t.nodes v).item with
  | symbol name =>
    rw [hi] at hs
    cases hs
  | choice i =>
    left
    simp only [Comp.value_bind, reduceCtorEq, if_false]
    split_ifs <;> rfl
  | menu =>
    simp only [Comp.value_bind, if_true]
    split_ifs with h0
    · exact .inl rfl
    · rw [Comp.value_bind, Comp.value_pure]
      split_ifs
      · exact .inr ⟨.inl trivial, rfl⟩
      · exact .inl rfl
  | comment =>
    simp only [Comp.value_bind, reduceCtorEq, if_false, if_true]
    split_ifs
    · exact .inl rfl
    · exact .inr ⟨.inr trivial, rfl⟩

theorem Writable.enterNode (hw : Writable k t env) (h : Solves k u env) (hl : t.Lists k)
    {w : Writer} {v : ι} (hv : v ∈ t.tree.preorder) (hin : Wrote k env w) :
    Wrote k env ((enterNode k u t w v).value env) ∧
      ((Menu.enterNode k u t w v).value env).visited =
        match (t.nodes v).symbol with
        | some name => if name ∈ w.visited then w.visited else w.visited ++ [name]
        | none => w.visited := by
  cases hs : (t.nodes v).symbol with
  | none =>
    rcases enterNode_other (k := k) (u := u) hs with heq | ⟨hi, heq⟩
    · rw [heq]
      exact ⟨hin, rfl⟩
    · rw [heq]
      exact ⟨Reads.heading hin (hw.titles v hv hi).1, rfl⟩
  | some name =>
    have hname : name ∈ k.syms.map Prod.fst := by
      rw [← hl]
      simpa [orderedUnique] using ⟨v, hv, hs⟩
    have hi : (t.nodes v).item = .symbol name := by
      unfold MenuNode.symbol at hs
      split at hs
      · rename_i hi
        rw [hi, Option.some.inj hs]
      · cases hs
    unfold Menu.enterNode
    rw [hi]
    dsimp only
    split_ifs with hvis
    · exact ⟨hin, rfl⟩
    · rw [Comp.value_bind, Comp.value_pure]
      have hstr : (symbolString k name).value env =
          configString name (k.symbol name).origType (strIn env name) := rfl
      have hsym := Reads.symbol (w := { w with visited := w.visited ++ [name] }) hin
        (hw.reads_symbol h hname)
      have hvisited : ({ w with visited := w.visited ++ [name] }.symbol
          (configString name (k.symbol name).origType (strIn env name))).visited =
          w.visited ++ [name] := by
        unfold Writer.symbol
        split_ifs <;> rfl
      rw [hstr]
      refine ⟨?_, hvisited⟩
      have hone : [name].filterMap (written env) = (written env name).toList := by
        cases hwr : written env name <;> simp [hwr]
      rw [Wrote, hvisited, List.filterMap_append, hone]
      exact hsym

variable [DecidableEq ι]

theorem leaveNode_other {w : Writer} {v : ι} :
    (leaveNode k u t w v).value env = w ∨
      ((t.nodes v).item = .menu ∧ v ≠ t.topNode ∧
        (leaveNode k u t w v).value env = w.endOf (t.nodes v).prompt) := by
  unfold leaveNode
  split_ifs with hi
  · simp only [Comp.value_bind]
    split_ifs
    · exact .inl rfl
    · simp only [Comp.value_bind, Comp.value_pure]
      split_ifs with hv
      · exact .inr ⟨hi, hv.2, rfl⟩
      · exact .inl rfl
  · exact .inl rfl

theorem Writable.leaveNode (hw : Writable k t env) {w : Writer} {v : ι}
    (hv : v ∈ t.tree.preorder ∨ v = t.topNode) (hin : Wrote k env w) :
    Wrote k env ((leaveNode k u t w v).value env) ∧
      ((Menu.leaveNode k u t w v).value env).visited = w.visited := by
  rcases leaveNode_other (k := k) (u := u) (t := t) (v := v) with heq | ⟨hi, hne, heq⟩
  · rw [heq]
    exact ⟨hin, rfl⟩
  · rw [heq]
    exact ⟨Reads.endOf hin (hw.titles v (hv.resolve_right hne) (.inl hi)).2, rfl⟩

def movedTo (t : MenuTree ι) (m : Move ι) : Option Text :=
  m.entered.bind fun v => (t.nodes v).symbol

theorem Writable.writeMove (hw : Writable k t env) (h : Solves k u env) (hl : t.Lists k)
    {w : Writer} {m : Move ι} (henter : ∀ v, m = .enter v → v ∈ t.tree.preorder)
    (hleave : ∀ v, m = .leave v → v ∈ t.tree.preorder ∨ v = t.topNode) (hin : Wrote k env w)
    {seen : List Text} (hseen : w.visited = orderedUnique seen) :
    Wrote k env ((writeMove k u t w m).value env) ∧
      ((Menu.writeMove k u t w m).value env).visited =
        orderedUnique (seen ++ (movedTo t m).toList) := by
  cases m with
  | enter v =>
    obtain ⟨hwrote, hvisited⟩ := hw.enterNode h hl (henter v rfl) hin
    refine ⟨hwrote, hvisited.trans ?_⟩
    change _ = orderedUnique (seen ++ ((t.nodes v).symbol).toList)
    cases (t.nodes v).symbol with
    | none => simpa using hseen
    | some name => rw [Option.toList_some, orderedUnique_concat, hseen]
  | leave v =>
    obtain ⟨hwrote, hvisited⟩ := hw.leaveNode (u := u) (hleave v rfl) hin
    refine ⟨hwrote, hvisited.trans ?_⟩
    simpa [movedTo, Move.entered] using hseen

theorem Writable.writeMoves (hw : Writable k t env) (h : Solves k u env) (hl : t.Lists k)
    {ms : List (Move ι)} (henter : ∀ v, .enter v ∈ ms → v ∈ t.tree.preorder)
    (hleave : ∀ v, .leave v ∈ ms → v ∈ t.tree.preorder ∨ v = t.topNode) {w : Writer}
    (hin : Wrote k env w) {seen : List Text} (hseen : w.visited = orderedUnique seen) :
    Wrote k env ((ms.foldlM (Menu.writeMove k u t) w).value env) ∧
      ((ms.foldlM (Menu.writeMove k u t) w).value env).visited =
        orderedUnique (seen ++ ms.filterMap (movedTo t)) := by
  induction ms generalizing w seen with
  | nil => exact ⟨hin, by simpa using hseen⟩
  | cons m ms ih =>
    obtain ⟨hwrote, hvisited⟩ := hw.writeMove h hl (m := m)
      (fun v hv => henter v (hv ▸ List.mem_cons_self))
      (fun v hv => hleave v (hv ▸ List.mem_cons_self))
      hin hseen
    have hrest := ih (fun v hv => henter v (List.mem_cons_of_mem _ hv))
      (fun v hv => hleave v (List.mem_cons_of_mem _ hv)) hwrote hvisited
    rw [List.foldlM_cons, Comp.value_bind]
    have hcat : seen ++ (m :: ms).filterMap (movedTo t) =
        seen ++ (movedTo t m).toList ++ ms.filterMap (movedTo t) := by
      rw [List.filterMap_cons]
      cases movedTo t m <;> simp
    rwa [hcat]

/-- The file that is written holds the value of each symbol that is to be written, once and
in the order of the definitions. -/
theorem Writable.contents (hw : Writable k t env) (h : Solves k u env) (hl : t.Lists k)
    {fuel : ℕ} (hfuel : 2 * t.tree.size + 3 ≤ fuel) :
    ∃ text, (configContents k u t defaultHeader fuel).value env = some text ∧
      Reads k text (k.syms.filterMap fun s => written env s.1) := by
  have hwalk := t.linked.walk_top t.topParent t.topNext hfuel
  have henter : ∀ v, .enter v ∈ Move.closed t.topNode t.tree.moves → v ∈ t.tree.preorder := by
    intro v hv
    rcases Move.mem_closed hv with h | h
    · exact Forest.mem_of_moves (.inl h)
    · cases h
  have hleave : ∀ v, .leave v ∈ Move.closed t.topNode t.tree.moves →
      v ∈ t.tree.preorder ∨ v = t.topNode := by
    intro v hv
    rcases Move.mem_closed hv with h | h
    · exact .inl (Forest.mem_of_moves (.inr h))
    · exact .inr (Move.leave.inj h)
  have hstart : Wrote k env ⟨[], false, [defaultHeader]⟩ := by
    rw [Wrote, List.flatten_singleton]
    exact reads_defaultHeader
  have hseen : (⟨[], false, [defaultHeader]⟩ : Writer).visited = orderedUnique [] := rfl
  obtain ⟨hwrote, hvisited⟩ := hw.writeMoves h hl henter hleave hstart hseen
  have hsyms : (Move.closed t.topNode t.tree.moves).filterMap (movedTo t) =
      t.tree.preorder.filterMap fun v => (t.nodes v).symbol := by
    have hcomp : movedTo t = fun m : Move ι => m.entered.bind fun v => (t.nodes v).symbol := rfl
    rw [hcomp, ← List.filterMap_filterMap, Move.entered_closed, Forest.moves_entered]
  rw [List.nil_append, hsyms, hl] at hvisited
  rw [Wrote, hvisited, List.filterMap_map] at hwrote
  rw [configContents, hwalk]
  exact ⟨_, Comp.value_bind .., hwrote⟩

end

end HaoosLfs.Menu
