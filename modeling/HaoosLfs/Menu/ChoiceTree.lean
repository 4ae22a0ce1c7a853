import HaoosLfs.Menu.Shown

/-!
# The choices of a finalized tree (`kconfiglib.py:3480-3500, 3693-3760, 6342-6368`)

`_finalize_choice` gives the symbols of a choice their types, and `_propagate_deps` makes
their prompts depend on the choice: where `_check_choice_sanity` has nothing to say, the
choice and its symbols limit each other as they should.
-/

namespace HaoosLfs.Menu
open Memo

/-! ### Types -/

/-- What finalizing the choices keeps: a symbol in a choice that has a type has a type, and
a symbol has the type it was defined with, or that of a choice it is in. -/
structure Typed (parsed : Text → SymbolType) (c : Choices) : Prop where
  member : ∀ i, ∀ name ∈ c.syms i, c.choiceType i ≠ .unknown → c.symType name ≠ .unknown
  source : ∀ name, c.symType name = parsed name ∨ parsed name = .unknown ∧
    ∃ i, name ∈ c.syms i ∧ c.choiceType i ≠ .unknown ∧ c.symType name = c.choiceType i

theorem foldl_addChoiceSym (i : ℕ) (names : List Text) (c : Choices) :
    (names.foldl (addChoiceSym i) c).symType = c.symType ∧
      (names.foldl (addChoiceSym i) c).choiceType = c.choiceType ∧
      (∀ j, j ≠ i → (names.foldl (addChoiceSym i) c).syms j = c.syms j) ∧
      (names.foldl (addChoiceSym i) c).syms i = c.syms i ++ names := by
  induction names generalizing c with
  | nil => exact ⟨rfl, rfl, fun j _ => rfl, (List.append_nil _).symm⟩
  | cons name names ih =>
    obtain ⟨h1, h2, h3, h4⟩ := ih (addChoiceSym i c name)
    refine ⟨h1, h2, fun j hj => ?_, ?_⟩
    · have hsyms : (addChoiceSym i c name).syms j = c.syms j := Function.update_of_ne hj _ _
      rw [List.foldl_cons, h3 j hj, hsyms]
    · have hsyms : (addChoiceSym i c name).syms i = c.syms i ++ [name] := Function.update_self ..
      rw [List.foldl_cons, h4, hsyms, List.append_assoc]
      rfl

theorem foldl_typeSym (type : SymbolType) (names : List Text) (c : Choices) :
    (names.foldl (typeSym type) c).syms = c.syms ∧
      (names.foldl (typeSym type) c).choiceType = c.choiceType ∧
      (∀ name, (names.foldl (typeSym type) c).symType name = c.symType name ∨
        c.symType name = .unknown ∧ name ∈ names ∧
          (names.foldl (typeSym type) c).symType name = type) ∧
      (type ≠ .unknown →
        ∀ name ∈ names, (names.foldl (typeSym type) c).symType name ≠ .unknown) := by
  induction names generalizing c with
  | nil => exact ⟨rfl, rfl, fun name => .inl rfl, fun _ name hn => absurd hn List.not_mem_nil⟩
  | cons name names ih =>
    obtain ⟨h1, h2, h3, h4⟩ := ih (typeSym type c name)
    have hsyms : (typeSym type c name).syms = c.syms := by
      rw [typeSym]
      split_ifs <;> rfl
    have hchoice : (typeSym type c name).choiceType = c.choiceType := by
      rw [typeSym]
      split_ifs <;> rfl
    have htype : ∀ other, (typeSym type c name).symType other = c.symType other ∨
        c.symType other = .unknown ∧ other = name ∧
          (typeSym type c name).symType other = type := by
      intro other
      rw [typeSym]
      split_ifs with hu
      · by_cases ho : other = name
        · subst ho
          exact .inr ⟨hu, rfl, Function.update_self ..⟩
        · exact .inl (Function.update_of_ne ho _ _)
      · exact .inl rfl
    have hself : type ≠ .unknown → (typeSym type c name).symType name ≠ .unknown := by
      intro ht
      rw [typeSym]
      split_ifs with hu
      · have htype : Function.update c.symType name type name = type := Function.update_self ..
        exact fun he => ht (htype.symm.trans he)
      · exact hu
    refine ⟨h1.trans hsyms, h2.trans hchoice, fun other => ?_, fun ht other hmem => ?_⟩
    · rw [List.foldl_cons]
      rcases h3 other with he | ⟨hu, hmem, he⟩
      · rcases htype other with he' | ⟨hu', ho, he'⟩
        · exact .inl (he.trans he')
        · exact .inr ⟨hu', List.mem_cons.mpr (.inl ho), he.trans he'⟩
      · rcases htype other with he' | ⟨hu', -, -⟩
        · exact .inr ⟨he' ▸ hu, List.mem_cons_of_mem _ hmem, he⟩
        · exact .inr ⟨hu', List.mem_cons_of_mem _ hmem, he⟩
    · rw [List.foldl_cons]
      rcases List.mem_cons.mp hmem with rfl | hmem
      · rcases h3 other with he | ⟨-, -, he⟩
        · rw [he]
          exact hself ht
        · rw [he]
          exact ht
      · exact h4 ht other hmem

theorem typeChoice_spec (c : Choices) (i : ℕ) :
    (typeChoice c i).syms = c.syms ∧ (typeChoice c i).symType = c.symType ∧
      ∀ j, (typeChoice c i).choiceType j = c.choiceType j ∨ c.choiceType j = .unknown ∧ j = i := by
  rw [typeChoice]
  split_ifs with hu
  · refine ⟨rfl, rfl, fun j => ?_⟩
    by_cases hj : j = i
    · exact .inr ⟨hj ▸ hu, hj⟩
    · exact .inl (Function.update_of_ne hj _ _)
  · exact ⟨rfl, rfl, fun j => .inl rfl⟩

theorem finalizeChoice_spec (i : ℕ) (names : List Text) (c : Choices) :
    (finalizeChoice i names c).syms i = c.syms i ++ names ∧
      (∀ j, j ≠ i → (finalizeChoice i names c).syms j = c.syms j) ∧
      (∀ j, c.choiceType j ≠ .unknown ∨ j ≠ i →
        (finalizeChoice i names c).choiceType j = c.choiceType j) ∧
      (∀ name, (finalizeChoice i names c).symType name = c.symType name ∨
        c.symType name = .unknown ∧ name ∈ (finalizeChoice i names c).syms i ∧
          (finalizeChoice i names c).symType name = (finalizeChoice i names c).choiceType i) ∧
      ((finalizeChoice i names c).choiceType i ≠ .unknown →
        ∀ name ∈ (finalizeChoice i names c).syms i,
          (finalizeChoice i names c).symType name ≠ .unknown) := by
  obtain ⟨ha1, ha2, ha3, ha4⟩ := foldl_addChoiceSym i names c
  obtain ⟨ht1, ht2, ht3⟩ := typeChoice_spec (names.foldl (addChoiceSym i) c) i
  generalize hc1 : names.foldl (addChoiceSym i) c = c1 at ha1 ha2 ha3 ha4 ht1 ht2 ht3
  generalize hc2 : typeChoice c1 i = c2 at ht1 ht2 ht3
  obtain ⟨hf1, hf2, hf3, hf4⟩ := foldl_typeSym (c2.choiceType i) (c2.syms i) c2
  have heq : finalizeChoice i names c = (c2.syms i).foldl (typeSym (c2.choiceType i)) c2 := by
    rw [finalizeChoice, hc1, hc2]
  rw [heq, hf1, hf2]
  refine ⟨by rw [ht1, ha4], fun j hj => by rw [ht1, ha3 j hj], fun j hj => ?_, fun name => ?_, hf4⟩
  · rw [← ha2]
    rcases ht3 j with he | ⟨hu, rfl⟩
    · exact he
    · rw [ha2] at hu
      rcases hj with hj | hj
      · exact absurd hu hj
      · exact absurd rfl hj
  · rw [← ha1, ← ht2]
    exact hf3 name

theorem Typed.finalizeChoice {parsed : Text → SymbolType} {c : Choices} (h : Typed parsed c) (i : ℕ)
    (names : List Text) : Typed parsed (finalizeChoice i names c) := by
  obtain ⟨hi, hother, htype, hsym, hall⟩ := finalizeChoice_spec i names c
  -- the symbols of every choice stay in it
  have hmem : ∀ j, ∀ name ∈ c.syms j, name ∈ (Menu.finalizeChoice i names c).syms j := by
    intro j name hn
    by_cases hj : j = i
    · rw [hj, hi]
      exact List.mem_append_left _ (hj ▸ hn)
    · rw [hother j hj]
      exact hn
  refine ⟨fun j name hn hne => ?_, fun name => ?_⟩
  · by_cases hj : j = i
    · exact hall (hj ▸ hne) name (hj ▸ hn)
    · rw [hother j hj] at hn
      rw [htype j (.inr hj)] at hne
      have hold := h.member j name hn hne
      rcases hsym name with he | ⟨hu, -, -⟩
      · rw [he]
        exact hold
      · exact absurd hu hold
  · rcases hsym name with he | ⟨hu, hn, he⟩
    · rw [he]
      rcases h.source name with hs | ⟨hp, j, hn, hne, hs⟩
      · exact .inl hs
      · refine .inr ⟨hp, j, hmem j name hn, ?_, ?_⟩
        · rw [htype j (.inl hne)]
          exact hne
        · rw [htype j (.inl hne)]
          exact hs
    · by_cases hne : (Menu.finalizeChoice i names c).choiceType i = .unknown
      · rw [he, hne]
        rcases h.source name with hs | ⟨hp, j, hn', hne', hs⟩
        · exact .inl (hu.symm.trans hs)
        · exact absurd (hs.symm.trans hu) hne'
      · refine .inr ⟨?_, i, hn, hne, he⟩
        rcases h.source name with hs | ⟨hp, -⟩
        · exact hs.symm.trans hu
        · exact hp

theorem Typed.closeChoice {ι : Type} {parsed : Text → SymbolType} {c : Choices}
    (h : Typed parsed c) (nodes : ι → ParsedNode) (v : ι) (list : Forest ι) :
    Typed parsed (closeChoice nodes c v list) := by
  rw [Menu.closeChoice]
  split
  · rename_i i _
    have hsame : Typed parsed
        { c with
          directDep := Function.update c.directDep i (makeOr (c.directDep i) (nodes v).dep)
          defaults := Function.update c.defaults i (c.defaults i ++ (nodes v).defaults) } :=
      ⟨h.member, h.source⟩
    exact hsame.finalizeChoice i _
  · exact h

/-! ### Members -/

theorem mem_closeChoice {ι : Type} {nodes : ι → ParsedNode} {c : Choices} {v : ι}
    {list : Forest ι} {i : ℕ} {name : Text} (h : name ∈ (closeChoice nodes c v list).syms i) :
    name ∈ c.syms i ∨ (nodes v).item = some (.choice i) ∧
      ∃ w ∈ list.roots, (nodes w).name = some name := by
  rw [closeChoice] at h
  split at h
  · rename_i j hitem
    generalize hc : { c with
      directDep := Function.update c.directDep j (makeOr (c.directDep j) (nodes v).dep)
      defaults := Function.update c.defaults j (c.defaults j ++ (nodes v).defaults) } = c1 at h
    have hsyms : c1.syms = c.syms := by rw [← hc]
    obtain ⟨hj, hother, -⟩ :=
      finalizeChoice_spec j (list.roots.filterMap fun w => (nodes w).name) c1
    by_cases hi : i = j
    · rw [hi, hj, hsyms, List.mem_append, List.mem_filterMap] at h
      rw [hi]
      rcases h with h | h
      · exact .inl h
      · exact .inr ⟨hitem, h⟩
    · rw [hother i hi, hsyms] at h
      exact .inl h
  · exact .inl h

section

variable {ι : Type} [DecidableEq ι] {top : ι} {cs list : Forest ι} {b b' : Build ι}
  (hf : Finalized .y (.node top cs .nil) b list b') (htop : (b.nodes top).item = some .menu)
  (hnew : ∀ i, b.choices.syms i = [])

include hf hnew

theorem Finalized.typed : Typed b.choices.symType b'.choices := by
  have hstart : Typed b.choices.symType b.choices := by
    refine ⟨fun i name hn => ?_, fun name => .inl rfl⟩
    rw [hnew i] at hn
    cases hn
  rw [hf.choices]
  exact List.foldlRecOn _ _ hstart fun c hc t _ => hc.closeChoice b'.nodes t.1 t.2

include htop

theorem Finalized.mem_syms {i : ℕ} {name : Text} (h : name ∈ b'.choices.syms i) :
    (∃ v ∈ cs.preorder, (b'.nodes v).item = some (.choice i)) ∧
      ∃ w ∈ cs.preorder, (b'.nodes w).name = some name := by
  have hbelow : ∀ x ∈ (Forest.node top cs .nil).preorder,
      (b'.nodes x).item ≠ some .menu → x ∈ cs.preorder := by
    intro x hx hne
    rw [Forest.preorder_node, Forest.preorder_nil, List.append_nil, List.mem_cons] at hx
    rcases hx with rfl | hx
    · exact absurd ((item_of_kind (hf.kind x)).trans htop) hne
    · exact hx
  rw [hf.choices] at h
  have hfold : ∀ name ∈ ((choicesIn b'.nodes list).foldl
      (fun c t => closeChoice b'.nodes c t.1 t.2) b.choices).syms i,
      (∃ v ∈ cs.preorder, (b'.nodes v).item = some (.choice i)) ∧
        ∃ w ∈ cs.preorder, (b'.nodes w).name = some name := by
    refine List.foldlRecOn (motive := fun (c : Choices) => ∀ name ∈ c.syms i,
      (∃ v ∈ cs.preorder, (b'.nodes v).item = some (.choice i)) ∧
        ∃ w ∈ cs.preorder, (b'.nodes w).name = some name) _ _ ?_ ?_
    · intro name hn
      rw [hnew i] at hn
      cases hn
    · intro c hc t ht name hn
      rcases mem_closeChoice hn with hn | ⟨hi, w, hw, hname⟩
      · exact hc name hn
      · have hv := hf.subset (Forest.mem_closing ht).2
        have hin := hf.subset (Forest.closing_subset ht (Forest.roots_subset _ hw))
        refine ⟨⟨t.1, hbelow _ hv ?_, hi⟩, w, hbelow _ hin ?_, hname⟩
        · rw [hi]
          simp
        · rw [name_of_item.mp hname]
          simp
  exact hfold name h

end

/-! ### Prompts -/

def Guarded (i : ℕ) (e : Expr) : Prop := e = .n ∨ .item (.choice i) ∈ splitAnd e

theorem Guarded.makeAnd {i : ℕ} {e2 : Expr} (h : Guarded i e2) (e1 : Expr) :
    Guarded i (makeAnd e1 e2) := by
  rw [Menu.makeAnd]
  split_ifs with h1 h2 h3
  · exact h
  · rw [h2] at h
    rcases h with h | h
    · exact absurd h (by decide)
    · exact absurd (List.mem_singleton.mp h) (by simp [Expr.y, Expr.const])
  · exact .inl rfl
  · rcases h with h | h
    · exact absurd (.inr h) h3
    · exact .inr (List.mem_append_right _ h)

def nearestChoice {ι : Type} (nodes : ι → ParsedNode) : List ι → Option ℕ
  | [] => none
  | p :: ps =>
    match (nodes p).item with
    | some (.choice i) => some i
    | _ => nearestChoice nodes ps

theorem guarded_baseDep {ι : Type} {nodes : ι → ParsedNode} {i : ℕ} {p : ι} {ps : List ι}
    (h : nearestChoice nodes (p :: ps) = some i)
    (ih : nearestChoice nodes ps = some i → Guarded i (nodeIn nodes ps p).dep) :
    Guarded i (baseDep (nodeIn nodes ps p)) := by
  rw [baseDep, item_nodeIn]
  rw [nearestChoice] at h
  cases hi : (nodes p).item with
  | none =>
    rw [hi] at h
    exact ih h
  | some item =>
    rw [hi] at h
    cases item with
    | choice j =>
      rw [← Option.some.inj h]
      exact .inr (List.mem_singleton.mpr rfl)
    | symbol name => exact ih h
    | menu => exact ih h
    | comment => exact ih h

theorem guarded_nodeIn {ι : Type} {nodes : ι → ParsedNode} {i : ℕ} {ps : List ι} (v : ι)
    (h : nearestChoice nodes ps = some i) : Guarded i (nodeIn nodes ps v).dep := by
  induction ps generalizing v with
  | nil => cases h
  | cons p ps ih =>
    have hdep : (nodeIn nodes (p :: ps) v).dep =
        makeAnd (nodes v).dep (baseDep (nodeIn nodes ps p)) := by
      change (propagateDep _ (nodeIn nodes ps p) (nodes v)).dep = _
      rw [propagateDep]
      split_ifs
      · rfl
      · rfl
    rw [hdep]
    exact (guarded_baseDep h fun hps => ih p hps).makeAnd _

theorem guarded_prompt {ι : Type} {nodes : ι → ParsedNode} {i : ℕ} {ps : List ι} {v : ι}
    (h : nearestChoice nodes ps = some i) (hsc : (nodes v).isSymbolChoice = true) {q : Text × Expr}
    (hq : q ∈ (nodeIn nodes ps v).prompt) : Guarded i q.2 := by
  cases ps with
  | nil => cases h
  | cons p ps =>
    have hdep := guarded_nodeIn v h
    change q ∈ (propagateDep _ (nodeIn nodes ps p) (nodes v)).prompt at hq
    change Guarded i (propagateDep _ (nodeIn nodes ps p) (nodes v)).dep at hdep
    rw [propagateDep, if_pos hsc] at hq hdep
    obtain ⟨q0, -, rfl⟩ := Option.map_eq_some_iff.mp hq
    exact (hdep.makeAnd _).makeAnd _

/-! ### The choices of the configuration -/

section

variable {ι : Type} {layout : Layout} {order : List ι} {b : Build ι}

theorem symbol_kconfigOf {name : Text} (h : ∃ v ∈ order, (b.nodes v).name = some name) :
    (kconfigOf layout order b).symbol name = symbolOf layout order b name := by
  have hlookup := lookup_map (definedNames order b) (symbolOf layout order b) name
  change (((definedNames order b).map fun name => (name, symbolOf layout order b name)).lookup
    name).getD undefinedSymbol = _
  rw [hlookup, if_pos (mem_definedNames.mpr h)]
  rfl

theorem choice_kconfigOf {i : ℕ} (h : i < layout.choices) :
    (kconfigOf layout order b).choice i = choiceAt layout order b i := by
  change ((List.range layout.choices).map (choiceAt layout order b)).getD i noChoice = _
  simp [List.getD_eq_getElem?_getD, h]

def ParsedNode.choice (node : ParsedNode) : Option ℕ :=
  match node.item with
  | some (.choice i) => some i
  | _ => none

/-- What `_check_choice_sanity` has nothing to say about, for a choice whose symbols are
defined as bools or tristates or without a type. -/
structure Checked (nodes : ι → ParsedNode) (ts : List (ι × List ι)) (c c' : Choices) (i : ℕ) :
    Prop where
  defined : ∃ t ∈ ts, (nodes t.1).item = some (.choice i)
  types : ∀ t ∈ ts, ∀ j ∈ (nodes t.1).choice, c'.choiceType j = .bool ∨
    c'.choiceType j = .tristate
  symbols : ∀ name ∈ c'.syms i,
    c.symType name = .unknown ∨ c.symType name = .bool ∨ c.symType name = .tristate
  inside : ∀ name ∈ c'.syms i, ∀ t ∈ ts, (nodes t.1).item = some (.symbol name) →
    (nodes t.1).prompt ≠ none → nearestChoice nodes t.2 = some i

end

/-- Where the checks of a choice pass, whatever implicit menus were made and wherever types
were left out: the choice and its symbols are bools or tristates, and each prompt of its
symbols is off where the choice is. -/
theorem sane_of_checked {ι : Type} [DecidableEq ι] {layout : Layout} {top : ι}
    {cs list next : Forest ι} {b b' : Build ι} {fuel : ℕ}
    (hp : Parsed b.nodes (.node top cs .nil)) (htop : (b.nodes top).item = some .menu)
    (hnew : ∀ i, b.choices.syms i = []) (hfuel : 2 * cs.size + 2 ≤ fuel)
    (hfinal : finalizeTree fuel .y top cs .nil b = some (list, next, b')) {i : ℕ}
    (hi : i < layout.choices)
    (hc : Checked b.nodes (Forest.paths [top] cs) b.choices b'.choices i) :
    Sane (kconfigOf layout cs.preorder b') i := by
  have hf := (finalized_of_run hp hfuel hfinal).2
  have htypes : ∀ j, (∃ v ∈ cs.preorder, (b'.nodes v).item = some (.choice j)) →
      b'.choices.choiceType j = .bool ∨ b'.choices.choiceType j = .tristate := by
    intro j hj
    obtain ⟨v, hv, hitem⟩ := hj
    obtain ⟨t, ht, rfl⟩ := Forest.exists_path [top] hv
    rw [item_of_kind (hf.kind t.1)] at hitem
    exact hc.types t ht j (by rw [ParsedNode.choice, hitem]; rfl)
  have hown : b'.choices.choiceType i = .bool ∨ b'.choices.choiceType i = .tristate := by
    obtain ⟨t, ht, hitem⟩ := hc.defined
    exact hc.types t ht i (by rw [ParsedNode.choice, hitem]; rfl)
  have hknown : ∀ type : SymbolType, type = .bool ∨ type = .tristate → type ≠ .unknown := by
    intro type ht
    rcases ht with rfl | rfl <;> decide
  have htyped := hf.typed hnew
  have hchoice : (kconfigOf layout cs.preorder b').choice i = choiceAt layout cs.preorder b' i :=
    choice_kconfigOf hi
  refine ⟨by rw [hchoice]; exact hown, fun name hname => ?_, fun name hname e he => ?_⟩
  · rw [hchoice] at hname
    rw [symbol_kconfigOf (hf.mem_syms htop hnew hname).2]
    change b'.choices.symType name = .bool ∨ b'.choices.symType name = .tristate
    have hne := htyped.member i name hname (hknown _ hown)
    rcases htyped.source name with hs | ⟨-, j, hj, -, hs⟩
    · rw [hs] at hne ⊢
      rcases hc.symbols name hname with hu | hb
      · exact absurd hu hne
      · exact hb
    · rw [hs]
      exact htypes j (hf.mem_syms htop hnew hj).1
  · rw [hchoice] at hname
    rw [prompts_kconfigOf] at he
    obtain ⟨v, hv, hitem, q, hq, rfl⟩ := mem_promptsOf.mp he
    obtain ⟨t, ht, rfl⟩ := Forest.exists_path [top] hv
    have hmem : t ∈ Forest.paths [] (.node top cs .nil) := by
      rw [Forest.paths]
      exact List.mem_cons_of_mem _ (List.mem_append_left _ ht)
    rw [item_of_kind (hf.kind t.1)] at hitem
    have hprompt : (b.nodes t.1).prompt ≠ none := by
      intro hnone
      have hkind : (b'.nodes t.1).prompt.isNone = (b.nodes t.1).prompt.isNone :=
        congrArg Prod.snd (hf.kind t.1)
      rw [hnone, Option.mem_def.mp hq] at hkind
      cases hkind
    have hsc : (b.nodes t.1).isSymbolChoice = true := by rw [ParsedNode.isSymbolChoice, hitem]
    rw [hf.nodeIn hp hmem] at hq
    exact guarded_prompt (hc.inside name hname t ht hitem hprompt) hsc hq

theorem checked_book : Checked bookBuild.nodes (Forest.paths [0] bookForest) bookBuild.choices
    bookFinal.choices 0 where
  defined := ⟨(2, [1, 0]), by decide, rfl⟩
  types := by decide +kernel
  symbols := by decide +kernel
  inside := by decide +kernel

theorem sane_of_checked_book : Sane bookKconfig 0 := by
  obtain ⟨list, hfinal⟩ := finalizeTree_book
  have hi : 0 < bookLayout.choices := by decide
  have h := sane_of_checked parsed_book rfl (fun _ => rfl) fuel_parsed_book hfinal hi checked_book
  rw [kconfig_book] at h
  exact h

end HaoosLfs.Menu
