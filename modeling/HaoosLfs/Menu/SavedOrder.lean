import HaoosLfs.Menu.SaveLoad
import HaoosLfs.Menu.Shown

/-!
# The order of a saved file (`kconfiglib.py:1484-1555, 3436-3512`)

`write_config` walks through the tree that `_finalize_tree` leaves. Implicit menus and
flattening move nodes between levels only, so the file follows the Kconfig files.
-/

namespace HaoosLfs.Menu
open Memo

/-- What `_config_contents` reads of a finalized node; menus and comments have prompts. -/
def ParsedNode.menuNode (node : ParsedNode) : MenuNode where
  item := node.item.getD .menu
  prompt := (node.prompt.map Prod.fst).getD []
  dep := node.dep
  visibility := node.visibility

theorem symbol_menuNode {node : ParsedNode} (h : node.isIf = false) :
    node.menuNode.symbol = node.name := by
  unfold ParsedNode.isIf at h
  cases hi : node.item with
  | none =>
    rw [hi] at h
    cases h
  | some item => cases item <;> simp [MenuNode.symbol, ParsedNode.menuNode, ParsedNode.name, hi]

theorem eraseDups_eq_orderedUnique (l : List Text) : l.eraseDups = orderedUnique l := by
  induction l using List.reverseRecOn with
  | nil => rfl
  | append_singleton l x ih =>
    have hmem : x ∈ orderedUnique l ↔ x ∈ l := by rw [← ih, List.mem_eraseDups]
    rw [List.eraseDups_append, orderedUnique_concat, ← ih]
    by_cases hx : x ∈ l
    · simp [hx, List.removeAll]
    · simp [hx, List.removeAll, List.eraseDups_cons]

theorem filterMap_symbol {ι : Type} {nodes : ι → ParsedNode} (l : List ι) :
    ((l.filter fun v => !(nodes v).isIf).filterMap fun v => (nodes v).menuNode.symbol) =
      l.filterMap fun v => (nodes v).name := by
  induction l with
  | nil => rfl
  | cons v l ih =>
    rw [List.filter_cons]
    cases hv : (nodes v).isIf with
    | true =>
      have hname : (nodes v).name = none := by
        rw [ParsedNode.name, Option.isNone_iff_eq_none.mp hv]
      rw [if_neg (by decide), ih, List.filterMap_cons, hname]
    | false =>
      rw [if_pos (by decide), List.filterMap_cons, List.filterMap_cons, ih, symbol_menuNode hv]

theorem syms_kconfigOf {ι : Type} (layout : Layout) (order : List ι) (b : Build ι) :
    (kconfigOf layout order b).syms.map Prod.fst = definedNames order b := by
  change ((definedNames order b).map fun name => (name, symbolOf layout order b name)).map
    Prod.fst = _
  rw [List.map_map]
  exact List.map_id _

section

variable {ι : Type} [DecidableEq ι] {layout : Layout} {top : ι} {cs list next : Forest ι}
  {b b' : Build ι} {fuel : ℕ} {t : MenuTree ι}
  (hp : Parsed b.nodes (.node top cs .nil)) (hfuel : 2 * cs.size + 2 ≤ fuel)
  (hfinal : finalizeTree fuel .y top cs .nil b = some (list, next, b'))
  (htree : t.tree = list) (hnodes : ∀ v ∈ list.preorder, t.nodes v = (b'.nodes v).menuNode)

include hp hfuel hfinal

theorem names_of_finalized : ∀ v, (b'.nodes v).name = (b.nodes v).name := by
  intro v
  exact name_of_kind ((finalized_of_run hp hfuel hfinal).2.kind v)

include htree hnodes

theorem lists_of_finalized : t.Lists (kconfigOf layout cs.preorder b') := by
  obtain ⟨horder, hf⟩ := finalized_of_run hp hfuel hfinal
  have hif : ∀ v, (b.nodes v).isIf = (b'.nodes v).isIf := fun v =>
    (isIf_of_kind (hf.kind v)).symm
  have hwalk : (list.preorder.filterMap fun v => (t.nodes v).symbol) =
      cs.preorder.filterMap fun v => (b'.nodes v).name := by
    rw [← filterMap_symbol, ← funext fun v => congrArg (!·) (hif v), ← horder]
    refine List.filterMap_congr fun v hv => ?_
    rw [hnodes v hv]
  rw [MenuTree.Lists, htree, hwalk, syms_kconfigOf, definedNames, eraseDups_eq_orderedUnique]

/-- A file that is saved after any operations holds the values that are to be written in the
order in which the Kconfig files first define their symbols, each once. -/
theorem saved_in_order {level : Item → ℕ} (hk : WellFormed (kconfigOf layout cs.preorder b'))
    (hl : Layered (kconfigOf layout cs.preorder b') level) {depth : ℕ}
    (hdepth : ∀ x, 6 * level x + 6 ≤ depth) {fuel' : ℕ} (hfuel' : 2 * t.tree.size + 3 ≤ fuel')
    {env : Env} (hw : Writable (kconfigOf layout cs.preorder b') t env) {ops : List Op} {st : State}
    (hrun : run (kconfigOf layout cs.preorder b') depth initial ops = some st)
    (hshows : Shows (kconfigOf layout cs.preorder b') depth st env) :
    ∃ text st', writeConfig (kconfigOf layout cs.preorder b') t depth fuel' st = some (text, st') ∧
      Reads (kconfigOf layout cs.preorder b') text
        ((orderedUnique (cs.preorder.filterMap fun v => (b.nodes v).name)).filterMap
          (written env)) := by
  have hlists : t.Lists (kconfigOf layout cs.preorder b') :=
    lists_of_finalized hp hfuel hfinal htree hnodes
  obtain ⟨text, st', hwrite, -, -, -, -, hreads⟩ :=
    (coherent_of_run hk hl hdepth hrun).writeConfig hk hl hdepth hlists hfuel' hw hshows
  refine ⟨text, st', hwrite, ?_⟩
  have hnames : orderedUnique (cs.preorder.filterMap fun v => (b.nodes v).name) =
      (kconfigOf layout cs.preorder b').syms.map Prod.fst := by
    rw [syms_kconfigOf, definedNames, eraseDups_eq_orderedUnique,
      funext (names_of_finalized hp hfuel hfinal)]
  rw [hnames, List.filterMap_map]
  exact hreads

end

/-- The links of `bookTree` with the nodes as they are finalized. -/
def bookMenu : MenuTree ℕ := { bookTree with nodes := fun v => (bookFinal.nodes v).menuNode }

theorem writable_menu_book {st : State} {env : Env}
    (hrun : run bookKconfig 24 initial bookOps = some st) (hshows : Shows bookKconfig 24 st env) :
    Writable bookKconfig bookMenu env := by
  have hold := writable_book hrun hshows
  refine ⟨hold.words, hold.values, fun v hv hitem => ?_⟩
  have hmenu : ∀ v ∈ bookMenu.tree.preorder, (bookMenu.nodes v).item = .menu ∨
      (bookMenu.nodes v).item = .comment →
      (bookMenu.nodes v).prompt = "BOOK Settings".toList := by
    decide +kernel
  rw [hmenu v hv hitem]
  exact ⟨silent_of_comment (by decide +kernel) (by decide +kernel) (by decide +kernel)
      (by decide +kernel),
    silent_of_comment (by decide +kernel) (by decide +kernel) (by decide +kernel)
      (by decide +kernel)⟩

theorem saved_in_order_book :
    ∃ st env text st', run bookKconfig 24 initial bookOps = some st ∧
      Shows bookKconfig 24 st env ∧
      writeConfig bookKconfig bookMenu 24 21 st = some (text, st') ∧
      Reads bookKconfig text
        ((orderedUnique (bookForest.preorder.filterMap fun v => (bookBuild.nodes v).name)).filterMap
          (written env)) := by
  obtain ⟨list, hfinal⟩ := finalizeTree_book
  have hlist : bookMenu.tree = list := by
    have hrun : (finalizeTree 24 .y 0 bookForest .nil bookBuild).map Prod.fst =
        some bookMenu.tree := by decide +kernel
    rw [hfinal] at hrun
    exact (Option.some.inj hrun).symm
  obtain ⟨st, hrun, hst⟩ := coherent_initial.run wellFormed_book layered_book depth_book bookOps
  obtain ⟨env, hshows⟩ : ∃ env, Shows bookKconfig 24 st env :=
    ⟨_, (hst.shows wellFormed_book layered_book depth_book).1⟩
  have hw := writable_menu_book hrun hshows
  have hnodes : ∀ v ∈ list.preorder, bookMenu.nodes v = (bookFinal.nodes v).menuNode :=
    fun _ _ => rfl
  have hk : WellFormed (kconfigOf bookLayout bookForest.preorder bookFinal) :=
    kconfig_book ▸ wellFormed_book
  have hl : Layered (kconfigOf bookLayout bookForest.preorder bookFinal) bookLevel :=
    kconfig_book ▸ layered_book
  have h := saved_in_order parsed_book fuel_parsed_book hfinal hlist hnodes hk hl depth_book
    fuel_book (kconfig_book.symm ▸ hw) (kconfig_book.symm ▸ hrun) (kconfig_book.symm ▸ hshows)
  rw [kconfig_book] at h
  obtain ⟨text, st', hwrite, hreads⟩ := h
  exact ⟨st, env, text, st', hrun, hshows, hwrite, hreads⟩

end HaoosLfs.Menu
