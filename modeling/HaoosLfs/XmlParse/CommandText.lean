import HaoosLfs.XmlParse.Commands

/-!
# What `xml -n cmd` prints of one command

The text of a command is complete when its text nodes are printed once each and
in document order. Whether that happens is decided by the children of the
command alone, provided the walk gets to the end of the document.
-/

namespace HaoosLfs.XmlParse
variable {ι : Type} (d : Doc ι)

/-- The nodes at which the loop body is begun: the last one is the first where the program
dies, if it dies. -/
def reached : List ι := upToFirst (fun v => decide (CmdNoNull d v)) d.tree.preorder

theorem exists_parent {v : ι} (hv : v ∈ d.tree.preorder) : ∃ p, d.links.parent v = some p := by
  obtain ⟨p, hp, -⟩ := d.linked.parent_mem hv
  exact ⟨p, hp⟩

theorem xmlMain_cmd [DecidableEq ι] : ∃ steps, ∀ fuel, steps ≤ fuel →
    xmlMain d "cmd" fuel =
      ⟨((reached d).flatMap (cmdPrinted d)).map (printed d true),
        if ∀ v ∈ d.tree.preorder, CmdNoNull d v then .exited else .segv⟩ := by
  obtain ⟨steps, hs⟩ := walk_eq_bodyRun d (xmlBody d "cmd")
  refine ⟨steps, fun fuel hf => ?_⟩
  have hbody : ∀ v ∈ d.tree.preorder, xmlBody d "cmd" v =
      ⟨(cmdPrinted d v).map (printed d true), if CmdNoNull d v then some () else none⟩ := by
    intro v hv
    obtain ⟨p, hp⟩ := exists_parent d hv
    rw [xmlBody_cmd, cmdBody_printed d hp]
  rw [xmlMain, hs fuel hf, bodyRun_eq hbody, List.nil_append, reached, List.map_flatMap]

/-! ### Complete commands -/

/-- The text nodes below a command, in document order. -/
def textNodes (f : Forest ι) : List ι := f.preorder.filter fun v => decide (d.type v = .text)

/-- The program ends, and what it prints of the nodes of `cs` is the content of
the text nodes of `cs`, each once and in document order. -/
def PrintsText [DecidableEq ι] (cs : Forest ι) : Prop :=
  ∃ steps, ∀ fuel, steps ≤ fuel →
    (xmlMain d "cmd" fuel).status = .exited ∧
    (xmlMain d "cmd" fuel).printed.filter (fun e => decide (e.node ∈ cs.preorder)) =
      (textNodes d cs).map (printed d true)

/-- Shape of a sibling list whose text is printed completely, where `due` says
that the head has been printed by the node above or before it: a node is a text
node exactly when it is due, the children of a node that fires are due, what
follows a literal of a command is due, and a literal that is followed by
something has nothing below it that fires. -/
def Covered : Bool → Forest ι → Prop
  | _, .nil => True
  | due, .node v cs ss =>
    (d.type v = .text ↔ due = true) ∧
    Covered (decide (Fires d v)) cs ∧
    Covered (decide (IsUnder d v "literal" "userinput")) ss ∧
    (IsUnder d v "literal" "userinput" → ss ≠ .nil → ∀ w ∈ cs.preorder, ¬ Fires d w)

section
variable {d}

theorem children_of_fires {w : ι} (hs : CmdSafe d w) (hf : Fires d w) :
    (d.links.children w).isSome := by
  rcases hf with hf | hf
  · exact (hs.1 hf.1).1
  · exact hs.2 hf

theorem cmdPrints_nil_iff {w : ι} (hs : CmdSafe d w) : cmdPrints d w = [] ↔ ¬ Fires d w := by
  constructor
  · intro h hf
    obtain ⟨c, hc⟩ := Option.isSome_iff_exists.mp (children_of_fires hs hf)
    simp [cmdPrints, hf, hc] at h
  · intro hf
    have hl : ¬ IsUnder d w "literal" "userinput" := fun h => hf (.inr h)
    simp [cmdPrints, hf, hl]

theorem flatMap_cmdPrints_nil_iff {vs : List ι} (hs : ∀ w ∈ vs, CmdSafe d w) :
    vs.flatMap (cmdPrints d) = [] ↔ ∀ w ∈ vs, ¬ Fires d w := by
  rw [List.flatMap_eq_nil_iff]
  exact forall₂_congr fun w hw => cmdPrints_nil_iff (hs w hw)

theorem textNodes_subset {f : Forest ι} : ∀ x ∈ textNodes d f, x ∈ f.preorder :=
  fun _ hx => (List.mem_filter.mp hx).1

theorem textNodes_node (v : ι) (cs ss : Forest ι) :
    textNodes d (.node v cs ss) =
      (if d.type v = .text then [v] else []) ++ (textNodes d cs ++ textNodes d ss) := by
  by_cases ht : d.type v = .text <;> simp [textNodes, ht]

theorem mem_of_head {c : Prop} [Decidable c] {f : Forest ι} :
    ∀ x ∈ (if c then f.head?.toList else []), x ∈ f.preorder := by
  intro x hx
  split_ifs at hx
  · exact Forest.head?_mem (by simpa using hx)
  · cases hx

theorem flatMap_cmdPrints_node {v : ι} {cs ss : Forest ι}
    (hchildren : d.links.children v = cs.head?) (hnext : d.links.next v = ss.head?) :
    (Forest.node v cs ss).preorder.flatMap (cmdPrints d) =
      (if Fires d v then cs.head?.toList else []) ++
        (if IsUnder d v "literal" "userinput" then ss.head?.toList else []) ++
          (cs.preorder.flatMap (cmdPrints d) ++ ss.preorder.flatMap (cmdPrints d)) := by
  rw [Forest.preorder_node, List.flatMap_cons, List.flatMap_append, cmdPrints, hchildren, hnext]

theorem literal_order_iff {v : ι} {cs ss : Forest ι} (hs : ∀ w ∈ cs.preorder, CmdSafe d w) :
    ((if IsUnder d v "literal" "userinput" then ss.head?.toList else []) = [] ∨
        cs.preorder.flatMap (cmdPrints d) = []) ↔
      (IsUnder d v "literal" "userinput" → ss ≠ .nil → ∀ w ∈ cs.preorder, ¬ Fires d w) := by
  rw [flatMap_cmdPrints_nil_iff hs]
  by_cases hl : IsUnder d v "literal" "userinput"
  · cases ss with
    | nil => simp [Forest.head?]
    | node s us ts => simp [hl]
  · simp [hl]

/-- Over a sibling list without null pointers to follow, printing and text agree
exactly for the covered shapes. -/
theorem covered_iff {f : Forest ι} {p : ι} {o : Option ι} (h : d.links.Holds p o f)
    (hp : p ∉ f.preorder) (hs : ∀ v ∈ f.preorder, CmdSafe d v) (due : Bool) :
    (if due then f.head?.toList else []) ++ f.preorder.flatMap (cmdPrints d) = textNodes d f ↔
      Covered d due f := by
  induction f generalizing p o due with
  | nil => cases due <;> simp [textNodes, Covered, Forest.head?]
  | node v cs ss ihc ihs =>
    have hn := h.nodup hp
    obtain ⟨hvc, hvs, -, -, hd⟩ := Forest.nodup_node.mp hn
    obtain ⟨-, -, hcs, hss⟩ := h
    have hps : p ∉ ss.preorder := fun hm => hp (Forest.mem_node.mpr (.inr (.inr hm)))
    have hsc : ∀ w ∈ cs.preorder, CmdSafe d w := fun w hw =>
      hs w (Forest.mem_node.mpr (.inr (.inl hw)))
    have hsss : ∀ w ∈ ss.preorder, CmdSafe d w := fun w hw =>
      hs w (Forest.mem_node.mpr (.inr (.inr hw)))
    have hPc := hcs.near_mem (cmdPrints_near d)
    have hPs := hss.near_mem (cmdPrints_near d)
    have hA : ∀ x ∈ (if Fires d v then cs.head?.toList else []), x ∈ cs.preorder := mem_of_head
    have hB : ∀ x ∈ (if IsUnder d v "literal" "userinput" then ss.head?.toList else []),
        x ∈ ss.preorder := mem_of_head
    have hTc := textNodes_subset (d := d) (f := cs)
    have hTs := textNodes_subset (d := d) (f := ss)
    have hx : v ∉ (if Fires d v then cs.head?.toList else []) ++
        (if IsUnder d v "literal" "userinput" then ss.head?.toList else []) ++
          (cs.preorder.flatMap (cmdPrints d) ++ ss.preorder.flatMap (cmdPrints d)) := by
      intro hm
      rcases List.mem_append.mp hm with hm | hm <;> rcases List.mem_append.mp hm with hm | hm
      · exact hvc (hA v hm)
      · exact hvs (hB v hm)
      · exact hvc (hPc v hm)
      · exact hvs (hPs v hm)
    have hy : v ∉ textNodes d cs ++ textNodes d ss := by
      intro hm
      rcases List.mem_append.mp hm with hm | hm
      · exact hvc (hTc v hm)
      · exact hvs (hTs v hm)
    have hdue : (if due then (Forest.node v cs ss).head?.toList else []) =
        if due = true then [v] else [] := rfl
    have hcross := append_cross_iff (s := (· ∈ cs.preorder)) hA hPc hTc
      (fun x hx hm => hd x hm (hB x hx)) (fun x hx hm => hd x hm (hPs x hx))
      (fun x hx hm => hd x hm (hTs x hx))
    have hic := ihc hcs hcs.not_mem_self hsc (decide (Fires d v))
    have his := ihs hss hps hsss (decide (IsUnder d v "literal" "userinput"))
    simp only [decide_eq_true_eq] at hic his
    rw [flatMap_cmdPrints_node hcs.head hss.head, textNodes_node, hdue, cons_if_iff hx hy, hcross,
      hic, his, literal_order_iff hsc, Covered]

end

theorem printed_injective (nl : Bool) : Function.Injective (printed d nl) :=
  fun _ _ h => congrArg Print.node h

theorem filter_printed [DecidableEq ι] (vs : List ι) (cs : Forest ι) :
    (vs.map (printed d true)).filter (fun e => decide (e.node ∈ cs.preorder)) =
      (vs.filter fun v => decide (v ∈ cs.preorder)).map (printed d true) := by
  rw [List.filter_map]
  rfl

theorem cmdPrints_userinput {u : ι} (hu : IsUnder d u "userinput" "screen") :
    cmdPrints d u = if UserinputFires d u then (d.links.children u).toList else [] := by
  have hl := not_literal_of_userinput d hu
  simp [cmdPrints, Fires, hl]

/-- A section with one command, `PAGE=<inline>&lt;paper_size&gt;</inline>
./configure --prefix=/usr`, whose `userinput` has the attributes `attr`. Node 7
is an attribute with the value `test`. -/
def paperDoc (inline : String) (attr : Option ℕ) : Doc ℕ where
  type n := ([.element, .element, .element, .text, .element, .text, .text, .attribute, .text] :
    List NodeType)[n]?.getD .element
  name n := (["sect1", "screen", "userinput", "text", inline, "text", "text", "remap",
    "text"])[n]?.getD ""
  content n := ([none, none, none, some "PAGE=", none, some "<paper_size>",
    some " ./configure --prefix=/usr", none, some "test"] : List (Option String))[n]?.join
  properties n := if n = 2 then attr else none
  links :=
    { parent := fun n => ([none, some 0, some 1, some 2, some 2, some 4, some 2, some 2, some 7] :
        List (Option ℕ))[n]?.join
      children := fun n => ([some 1, some 2, some 3, none, some 5, none, none, some 8, none] :
        List (Option ℕ))[n]?.join
      next := fun n => ([none, none, none, some 4, some 6, none, none, none, none] :
        List (Option ℕ))[n]?.join }
  proot := 0
  tree := .node 1
    (.node 2 (.node 3 .nil (.node 4 (.node 5 .nil .nil) (.node 6 .nil .nil))) .nil) .nil
  linked := ⟨rfl, rfl, ⟨rfl, rfl, ⟨rfl, rfl, rfl, ⟨rfl, rfl, ⟨rfl, rfl, rfl, rfl⟩,
    ⟨rfl, rfl, rfl, rfl⟩⟩⟩, rfl⟩, rfl⟩

def paperCommand : Forest ℕ :=
  .node 3 .nil (.node 4 (.node 5 .nil .nil) (.node 6 .nil .nil))

/-- A command that is not filtered out is printed completely exactly when no null pointer is
followed and no null content printed anywhere in the document and the children of the
command have the covered shape, where the head is due when it is a text child. -/
theorem printsText_iff [DecidableEq ι] {u : ι} {cs : Forest ι}
    (hu : d.tree.childrenOf u = some cs) (hc : IsUnder d u "userinput" "screen")
    (hk : Kept d u) :
    PrintsText d cs ↔ (∀ v ∈ d.tree.preorder, CmdNoNull d v) ∧
      Covered d (decide ((d.links.children u).map d.name = some "text")) cs := by
  obtain ⟨steps, hrun⟩ := xmlMain_cmd d
  have hcs := d.linked.childrenOf hu
  have hfires : UserinputFires d u ↔ (d.links.children u).map d.name = some "text" :=
    ⟨fun h => h.2.1, fun h => ⟨hc, h, hk⟩⟩
  have hgu : ∀ x ∈ cmdPrints d u, d.links.children u = some x := by
    intro x hx
    rw [cmdPrints_userinput d hc] at hx
    split_ifs at hx
    · simpa using hx
    · cases hx
  have hout : ∀ fuel, steps ≤ fuel →
      (((xmlMain d "cmd" fuel).status = .exited ∧
        (xmlMain d "cmd" fuel).printed.filter (fun e => decide (e.node ∈ cs.preorder)) =
          (textNodes d cs).map (printed d true)) ↔
      (∀ v ∈ d.tree.preorder, CmdNoNull d v) ∧
        Covered d (decide ((d.links.children u).map d.name = some "text")) cs) := by
    intro fuel hf
    rw [hrun fuel hf]
    by_cases hsafe : ∀ v ∈ d.tree.preorder, CmdNoNull d v
    · have hr : (reached d).flatMap (cmdPrinted d) = d.tree.preorder.flatMap (cmdPrints d) := by
        rw [reached, upToFirst_eq_self fun v hv => decide_eq_true (hsafe v hv)]
        exact List.flatMap_congr fun v hv => cmdPrinted_of_noNull d (hsafe v hv)
      have hcov := covered_iff hcs hcs.not_mem_self
        (fun v hv => (hsafe v ((Forest.childrenOf_mem hu).2 v hv)).1)
        (decide ((d.links.children u).map d.name = some "text"))
      rw [hr, filter_printed,
        d.linked.filter_near (cmdPrints_near d) hgu d.nodup hu,
        List.map_inj_right fun _ _ h => printed_injective d true h, cmdPrints_userinput d hc,
        ← hcov]
      simp [hfires, hcs.head]
    · simp [hsafe]
  constructor
  · rintro ⟨n, hn⟩
    exact (hout (max n steps) (by omega)).mp (hn _ (by omega))
  · exact fun h => ⟨steps, fun fuel hf => (hout fuel hf).mpr h⟩

/-- With a literal inside, the command is printed completely. -/
theorem printsText_literal : PrintsText (paperDoc "literal" none) paperCommand :=
  (printsText_iff (u := 2) (paperDoc "literal" none) (by decide) (by decide) (by decide)).mpr
    ⟨by decide, by simp only [Covered, paperCommand]; decide⟩

/-- With a replaceable inside, only the text before it is printed. -/
theorem not_printsText_replaceable :
    (paperDoc "replaceable" none).tree.childrenOf 2 = some paperCommand ∧
    IsUnder (paperDoc "replaceable" none) 2 "userinput" "screen" ∧
    Kept (paperDoc "replaceable" none) 2 ∧
    ¬ PrintsText (paperDoc "replaceable" none) paperCommand := by
  refine ⟨by decide, by decide, by decide, ?_⟩
  rintro ⟨n, hn⟩
  obtain ⟨steps, hrun⟩ := xmlMain_cmd (paperDoc "replaceable" none)
  obtain ⟨-, h⟩ := hn (max n steps) (by omega)
  rw [hrun (max n steps) (by omega)] at h
  exact absurd h (by decide)

/-! ### Filtered commands -/

/-- What the program prints of the nodes of `cs` is no text. -/
def PrintsNoText [DecidableEq ι] (cs : Forest ι) : Prop :=
  ∃ steps, ∀ fuel, steps ≤ fuel →
    ∀ e ∈ (xmlMain d "cmd" fuel).printed, e.node ∈ cs.preorder → e.text = none

theorem cmdPrinted_no_content_iff (v : ι) :
    (∀ x ∈ cmdPrinted d v, getContent d x = none) ↔
      (CmdSafe d v → Fires d v → ∀ c ∈ d.links.children v, getContent d c = none) := by
  unfold cmdPrinted
  by_cases hs : CmdSafe d v
  · by_cases hf : Fires d v
    · rw [if_pos hs, forall_prop_of_true hs, forall_prop_of_true hf]
      obtain ⟨c, hc⟩ := Option.isSome_iff_exists.mp (children_of_fires hs hf)
      simp only [withContent, cmdPrints, if_pos hf, hc, Option.toList_some, List.cons_append,
        List.nil_append, Option.mem_some_iff, forall_eq']
      cases hcc : getContent d c with
      | none => simp [hcc]
      | some t => simp [hcc]
    · rw [if_pos hs, withContent, (cmdPrints_nil_iff hs).mpr hf]
      simp [hf]
  · simp [hs]

/-- Of a command that is filtered out no text is printed exactly when nothing below it that
is reached prints one: no literal directly inside a command whose first child has a text, and
no nested command that is kept. -/
theorem printsNoText_iff [DecidableEq ι] {u : ι} {cs : Forest ι}
    (hu : d.tree.childrenOf u = some cs) (hc : IsUnder d u "userinput" "screen")
    (hk : attrValue d u = some "test" ∨ (d.links.parent u).bind (attrValue d) = some "sysv") :
    PrintsNoText d cs ↔ ∀ v ∈ cs.preorder, v ∈ reached d → CmdSafe d v →
      Fires d v → ∀ c ∈ d.links.children v, getContent d c = none := by
  obtain ⟨steps, hrun⟩ := xmlMain_cmd d
  let g : ι → List ι := fun v => if v ∈ reached d then cmdPrinted d v else []
  have hg : Links.Near d.links g := by
    intro v x hx
    simp only [g] at hx
    split_ifs at hx
    · exact cmdPrinted_near d v x hx
    · cases hx
  have hgu : g u = [] := by
    have hf : ¬ UserinputFires d u := fun h => hk.elim h.2.2.1 h.2.2.2
    simp [g, cmdPrinted, cmdPrints_userinput d hc, withContent, hf]
  have hfilter : ((reached d).flatMap (cmdPrinted d)).filter (fun x => decide (x ∈ cs.preorder)) =
      cs.preorder.flatMap g := by
    have h1 := d.linked.filter_near hg (by rw [hgu]; intro x hx; cases hx) d.nodup hu
    rw [hgu, List.nil_append] at h1
    have hprefix : reached d <+: d.tree.preorder := upToFirst_prefix _ _
    rw [← h1, flatMap_prefix d.nodup hprefix]
  have hmem : ∀ x, (x ∈ (reached d).flatMap (cmdPrinted d) ∧ x ∈ cs.preorder) ↔
      ∃ v ∈ cs.preorder, v ∈ reached d ∧ x ∈ cmdPrinted d v := by
    intro x
    have h1 : x ∈ ((reached d).flatMap (cmdPrinted d)).filter
        (fun x => decide (x ∈ cs.preorder)) ↔ x ∈ cs.preorder.flatMap g := by rw [hfilter]
    simpa [g, List.mem_filter, List.mem_flatMap] using h1
  have hout : ∀ fuel, steps ≤ fuel →
      ((∀ e ∈ (xmlMain d "cmd" fuel).printed, e.node ∈ cs.preorder → e.text = none) ↔
        ∀ v ∈ cs.preorder, v ∈ reached d → ∀ x ∈ cmdPrinted d v, getContent d x = none) := by
    intro fuel hf
    rw [hrun fuel hf]
    constructor
    · intro h v hv hr x hx
      have hx2 := (hmem x).mpr ⟨v, hv, hr, hx⟩
      exact h (printed d true x) (List.mem_map_of_mem hx2.1) hx2.2
    · intro h e he hcse
      obtain ⟨x, hx, rfl⟩ := List.mem_map.mp he
      obtain ⟨v, hv, hr, hxv⟩ := (hmem x).mp ⟨hx, hcse⟩
      exact h v hv hr x hxv
  constructor
  · rintro ⟨n, hn⟩ v hv hr
    exact (cmdPrinted_no_content_iff d v).mp
      ((hout (max n steps) (by omega)).mp (hn _ (by omega)) v hv hr)
  · exact fun h => ⟨steps, fun fuel hf =>
      (hout fuel hf).mpr fun v hv hr => (cmdPrinted_no_content_iff d v).mpr (h v hv hr)⟩

/-- Of a test command with a replaceable inside nothing is printed. -/
theorem printsNoText_replaceable : PrintsNoText (paperDoc "replaceable" (some 7)) paperCommand :=
  (printsNoText_iff (u := 2) (paperDoc "replaceable" (some 7)) (by decide) (by decide)
    (.inl (by decide))).mpr (by decide)

/-- Of a test command with a literal inside the literal and what follows it are
printed. -/
theorem not_printsNoText_literal :
    (paperDoc "literal" (some 7)).tree.childrenOf 2 = some paperCommand ∧
    IsUnder (paperDoc "literal" (some 7)) 2 "userinput" "screen" ∧
    attrValue (paperDoc "literal" (some 7)) 2 = some "test" ∧
    ¬ PrintsNoText (paperDoc "literal" (some 7)) paperCommand := by
  refine ⟨by decide, by decide, by decide, ?_⟩
  rintro ⟨n, hn⟩
  obtain ⟨steps, hrun⟩ := xmlMain_cmd (paperDoc "literal" (some 7))
  have h := hn (max n steps) (by omega)
  rw [hrun (max n steps) (by omega)] at h
  exact absurd h (by decide)

end HaoosLfs.XmlParse
