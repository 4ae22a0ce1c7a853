import HaoosLfs.XmlParse.NullLinks

/-!
# The links printed by `blfs-xml -n cmd` (`blfs-xml.c:143-152`)

`get_blfs_pkgs.sh` downloads what this program prints. Of a paragraph in a list it prints
the first child, and then the first attribute of the second child if that is a `ulink`.
-/

namespace HaoosLfs.XmlParse
variable {ι : Type}

/-- A document with the attributes of its nodes, which are linked like children, from
`properties` on. The entities are replaced (`XML_PARSE_NOENT`), so only elements have
children. -/
structure AttrDoc (ι : Type) extends Doc ι where
  attrs : ι → Forest ι
  attrsLinked : ∀ v ∈ tree.preorder, links.Holds v (properties v) (attrs v)
  attrType : ∀ v ∈ tree.preorder, ∀ a ∈ (attrs v).roots, type a = .attribute
  nodeType : ∀ v ∈ tree.preorder, type v ≠ .attribute
  childType : ∀ v ∈ tree.preorder, (links.children v).isSome → type v = .element

/-! ### The links of a document -/

section
variable (d : AttrDoc ι)

def urlAttr (n : ι) : Option ι := (d.attrs n).roots.find? fun a => decide (d.name a = "url")

def IsUlink (n : ι) : Prop := (d.type n = .element ∧ d.name n = "ulink") ∧ (urlAttr d n).isSome

/-- A link of the list: its parent is a `para` directly inside a `listitem`. Both have
children, so they are elements; the root has no parent element. -/
def IsListed (n : ι) : Prop :=
  IsUlink d n ∧
    ∃ v ∈ d.tree.preorder, d.links.parent n = some v ∧ IsUnder d.toDoc v "para" "listitem"

instance (n : ι) : Decidable (IsUlink d n) := inferInstanceAs (Decidable (_ ∧ _))

instance [DecidableEq ι] (n : ι) : Decidable (IsListed d n) :=
  inferInstanceAs (Decidable (_ ∧ ∃ v ∈ _, _))

/-- The line with the value of the `url`; none where the attribute has no value. -/
def urlLine (n : ι) : Option (Print ι) :=
  (urlAttr d n).bind fun a => (d.links.children a).bind fun x =>
    (getContent d.toDoc x).map fun s => ⟨x, some s, true⟩

def IsValue (e : Print ι) : Prop := (d.links.parent e.node).map d.type = some .attribute

instance (e : Print ι) : Decidable (IsValue d e) := inferInstanceAs (Decidable (_ = _))

/-- The program ends, hands no null to `printf`, and what it prints of attributes are the
urls of the listed links, each once and in document order. -/
def PrintsUrls [DecidableEq ι] : Prop :=
  ∃ steps, ∀ fuel, steps ≤ fuel →
    ((blfsXmlMain d.toDoc "cmd" fuel).status = .exited ∧
      ∀ e ∈ (blfsXmlMain d.toDoc "cmd" fuel).printed, e.text.isSome) ∧
    (((blfsXmlMain d.toDoc "cmd" fuel).printed.filter fun e => decide (IsValue d e)).map some =
      (d.tree.preorder.filter fun n => decide (IsListed d n)).map (urlLine d))

/-! ### What is read -/

def secondChild (v : ι) : Option ι := (d.links.children v).bind d.links.next

/-- A paragraph that the program reads rightly: it begins with a text, a `ulink` that
comes second has its `url` as first attribute, and no `ulink` stands anywhere else. -/
structure ParaRead (v : ι) : Prop where
  text : (firstText d.toDoc v).isSome
  link : ∀ n, secondChild d v = some n → d.name n = "ulink" →
    d.type n = .element ∧
      ∃ a, d.properties n = some a ∧ d.name a = "url" ∧ (firstText d.toDoc a).isSome
  only : ∀ n ∈ d.tree.preorder, d.links.parent n = some v → IsUlink d n →
    secondChild d v = some n

/-- The value that is printed at a paragraph, and all nodes that are printed there. -/
def linkValue (v : ι) : Option ι :=
  ((secondChild d v).filter fun n => decide (d.name n = "ulink")).bind fun n =>
    (d.properties n).bind d.links.children

def linkPrints (v : ι) : List ι :=
  if IsUnder d.toDoc v "para" "listitem" then (linkValue d v).toList else []

def paraPrints (v : ι) : List ι :=
  if IsUnder d.toDoc v "para" "listitem" then (d.links.children v).toList ++ (linkValue d v).toList
  else []

end

section
variable {d : AttrDoc ι}

/-! ### Attributes -/

theorem attr_parent {n a : ι} (hn : n ∈ d.tree.preorder) (ha : a ∈ (d.attrs n).roots) :
    d.links.parent a = some n := (d.attrsLinked n hn).parent_of_root ha

theorem value_parent {n a x : ι} (hn : n ∈ d.tree.preorder) (ha : a ∈ (d.attrs n).roots)
    (hx : d.links.children a = some x) : d.links.parent x = some a :=
  (d.attrsLinked n hn).parent_of_first (Forest.roots_subset _ ha) hx

theorem mem_urlAttr {n a : ι} (h : urlAttr d n = some a) :
    a ∈ (d.attrs n).roots ∧ d.name a = "url" := by
  have hname := List.find?_some h
  exact ⟨List.mem_of_find?_eq_some h, of_decide_eq_true hname⟩

theorem first_attr {n a : ι} (hn : n ∈ d.tree.preorder) (ha : d.properties n = some a) :
    a ∈ (d.attrs n).roots ∧ (d.name a = "url" → urlAttr d n = some a) := by
  have hl := d.attrsLinked n hn
  unfold urlAttr
  cases hf : d.attrs n with
  | nil =>
    rw [hf] at hl
    have hnone : d.properties n = none := hl
    rw [hnone] at ha
    cases ha
  | node b vs rest =>
    rw [hf] at hl
    obtain rfl := Option.some.inj (hl.1.symm.trans ha)
    refine ⟨List.mem_cons_self, fun hname => ?_⟩
    simp [hname]

theorem value_unique {n m a b x : ι} (hn : n ∈ d.tree.preorder) (hm : m ∈ d.tree.preorder)
    (ha : a ∈ (d.attrs n).roots) (hb : b ∈ (d.attrs m).roots)
    (hax : d.links.children a = some x) (hbx : d.links.children b = some x) : a = b ∧ n = m := by
  have hab := (value_parent hn ha hax).symm.trans (value_parent hm hb hbx)
  obtain rfl := Option.some.inj hab
  have hnm := (attr_parent hn ha).symm.trans (attr_parent hm hb)
  exact ⟨rfl, Option.some.inj hnm⟩

theorem linkValue_eq_some {v x : ι} :
    linkValue d v = some x ↔ ∃ n, secondChild d v = some n ∧ d.name n = "ulink" ∧
      ∃ a, d.properties n = some a ∧ d.links.children a = some x := by
  simp [linkValue, Option.bind_eq_some_iff, Option.filter_eq_some_iff, and_assoc]

theorem firstText_eq_some {a : ι} {s : String} :
    firstText d.toDoc a = some s ↔
      ∃ x, d.links.children a = some x ∧ getContent d.toDoc x = some s :=
  Option.bind_eq_some_iff

theorem urlLine_eq_some {n : ι} {e : Print ι} :
    urlLine d n = some e ↔ ∃ a x, urlAttr d n = some a ∧ d.links.children a = some x ∧
      e = printed d.toDoc true x ∧ e.text.isSome := by
  unfold urlLine
  simp only [Option.bind_eq_some_iff, Option.map_eq_some_iff]
  constructor
  · rintro ⟨a, ha, x, hx, s, hs, rfl⟩
    exact ⟨a, x, ha, hx, by rw [printed, hs], rfl⟩
  · rintro ⟨a, x, ha, hx, rfl, htext⟩
    obtain ⟨s, hs⟩ := Option.isSome_iff_exists.mp htext
    have hs' : getContent d.toDoc x = some s := hs
    exact ⟨a, ha, x, hx, s, hs', by rw [printed, hs']⟩

theorem second_mem {v n : ι} (hv : v ∈ d.tree.preorder) (hn : secondChild d v = some n) :
    n ∈ d.tree.preorder ∧ d.links.parent n = some v := by
  obtain ⟨c, hc, hcn⟩ := Option.bind_eq_some_iff.mp hn
  obtain ⟨cs, hcs, -, hsub⟩ := d.linked.below hv
  cases cs with
  | nil =>
    have hnone : d.links.children v = none := hcs
    rw [hnone] at hc
    cases hc
  | node b ds ss =>
    obtain ⟨hb, -, -, hss⟩ := hcs
    obtain rfl := Option.some.inj (hb.symm.trans hc)
    rw [hcn] at hss
    have hroot : n ∈ ss.roots := by
      cases ss with
      | nil => cases hss
      | node m es ts =>
        obtain rfl := Option.some.inj hss.1
        exact List.mem_cons_self
    refine ⟨hsub n ?_, hss.parent_of_root hroot⟩
    exact Forest.mem_node.mpr (.inr (.inr (Forest.roots_subset ss hroot)))

theorem isListed_iff {n v : ι} (hv : v ∈ d.tree.preorder) (hn : d.links.parent n = some v) :
    IsListed d n ↔ IsUlink d n ∧ IsUnder d.toDoc v "para" "listitem" := by
  refine and_congr_right fun _ => ⟨?_, fun hu => ⟨v, hv, hn, hu⟩⟩
  rintro ⟨w, -, hw, hu⟩
  obtain rfl := Option.some.inj (hn.symm.trans hw)
  exact hu

/-! ### The loop body -/

theorem exists_first {v : ι} (h : (firstText d.toDoc v).isSome) :
    ∃ c, d.links.children v = some c ∧ (getContent d.toDoc c).isSome := by
  obtain ⟨s, hs⟩ := Option.isSome_iff_exists.mp h
  obtain ⟨c, hc, hcs⟩ := firstText_eq_some.mp hs
  exact ⟨c, hc, by rw [hcs]; rfl⟩

theorem paraRule_eq {v p : ι} (hp : d.links.parent v = some p) (hv : ParaNoNull d.toDoc v) :
    paraRule d.toDoc v = emit ((paraPrints d v).map (printed d.toDoc true)) := by
  unfold paraRule paraPrints
  rw [isNamedUnder_eq d.toDoc hp, pure_bind]
  by_cases hu : IsUnder d.toDoc v "para" "listitem"
  · obtain ⟨htext, hlink⟩ := hv hu
    obtain ⟨c, hc, hcs⟩ := exists_first htext
    have hprint := printNode_of_isSome d.toDoc hcs true
    rw [decide_eq_true hu, if_pos rfl, if_pos hu, hc]
    unfold linkValue secondChild
    rw [hc] at hlink ⊢
    cases hn : d.links.next c with
    | none => simp [printContent, hprint, hn]; rfl
    | some n =>
      by_cases hname : d.name n = "ulink"
      · have hval := hlink n hn hname
        obtain ⟨s, hs⟩ := Option.isSome_iff_exists.mp hval
        obtain ⟨a, ha, has⟩ := Option.bind_eq_some_iff.mp hs
        obtain ⟨x, hx, hxs⟩ := firstText_eq_some.mp has
        have hprint' := printNode_of_isSome d.toDoc (n := x) (by rw [hxs]; rfl) true
        simp [printContent, printUrl, Option.filter_some, hprint, hprint', hn, hname, ha, hx]
        rfl
      · simp [printContent, Option.filter_some, hprint, hn, hname]
        rfl
  · rw [decide_eq_false hu, if_neg hu]
    rfl

theorem paraPrints_filter {v : ι} (hv : v ∈ d.tree.preorder) :
    (paraPrints d v).filter (fun x => decide (IsValue d (printed d.toDoc true x))) =
      linkPrints d v := by
  unfold paraPrints linkPrints
  split_ifs with hu
  · have hfirst : ∀ c ∈ (d.links.children v).toList,
        ¬ decide (IsValue d (printed d.toDoc true c)) = true := by
      intro c hc hval
      have hpar := d.linked.parent_of_first hv (Option.mem_toList.mp hc)
      have hval' : (d.links.parent c).map d.type = some .attribute := of_decide_eq_true hval
      rw [hpar] at hval'
      exact d.nodeType v hv (Option.some.inj hval')
    have hlink : ∀ x ∈ (linkValue d v).toList,
        decide (IsValue d (printed d.toDoc true x)) = true := by
      intro x hx
      obtain ⟨n, hn, -, a, ha, hax⟩ := linkValue_eq_some.mp (Option.mem_toList.mp hx)
      have hnmem := (second_mem hv hn).1
      have hroot := (first_attr hnmem ha).1
      have hval : (d.links.parent x).map d.type = some .attribute := by
        rw [value_parent hnmem hroot hax, Option.map_some, d.attrType n hnmem a hroot]
      exact decide_eq_true hval
    rw [List.filter_append, List.filter_eq_nil_iff.mpr hfirst, List.filter_eq_self.mpr hlink,
      List.nil_append]
  · rfl

/-! ### The run -/

theorem sound_blfsCmd {v : ι} (hv : v ∈ d.tree.preorder) :
    (blfsXmlBody d.toDoc "cmd" v).Sound (fun e => e.text.isSome) ↔ ParaNoNull d.toDoc v := by
  obtain ⟨p, hp⟩ := exists_parent d.toDoc hv
  exact (sound_blfsXmlBody d.toDoc hp).1

theorem blfsCmd_run (h : ∀ v ∈ d.tree.preorder, ParaNoNull d.toDoc v) :
    bodyRun (blfsXmlBody d.toDoc "cmd") d.tree.preorder [] =
      ⟨(d.tree.preorder.flatMap (paraPrints d)).map (printed d.toDoc true), .exited⟩ := by
  have hbody : ∀ v ∈ d.tree.preorder, blfsXmlBody d.toDoc "cmd" v =
      ⟨(paraPrints d v).map (printed d.toDoc true), if True then some () else none⟩ := by
    intro v hv
    obtain ⟨p, hp⟩ := exists_parent d.toDoc hv
    have hrule : blfsXmlBody d.toDoc "cmd" v = paraRule d.toDoc v := by
      simp [blfsXmlBody, modeBody]
    rw [if_pos trivial, hrule, paraRule_eq hp (h v hv)]
    rfl
  have hall : upToFirst (fun _ => decide True) d.tree.preorder = d.tree.preorder :=
    upToFirst_eq_self fun _ _ => rfl
  rw [bodyRun_eq hbody, List.nil_append, List.map_flatMap, hall, if_pos fun _ _ => trivial]

variable [DecidableEq ι]

theorem printsUrls_iff_lists :
    PrintsUrls d ↔ (∀ v ∈ d.tree.preorder, ParaNoNull d.toDoc v) ∧
      (d.tree.preorder.flatMap (linkPrints d)).map (fun x => some (printed d.toDoc true x)) =
        (d.tree.preorder.filter fun n => decide (IsListed d n)).map (urlLine d) := by
  obtain ⟨steps, hs⟩ := walk_eq_bodyRun d.toDoc (blfsXmlBody d.toDoc "cmd")
  have hsound : _ ↔ (∀ e ∈ ([] : List (Print ι)), e.text.isSome) ∧ ∀ v ∈ d.tree.preorder,
      (blfsXmlBody d.toDoc "cmd" v).Sound fun e => e.text.isSome := bodyRun_sound
  have hnull : (∀ v ∈ d.tree.preorder, (blfsXmlBody d.toDoc "cmd" v).Sound
      fun e => e.text.isSome) ↔ ∀ v ∈ d.tree.preorder, ParaNoNull d.toDoc v :=
    forall₂_congr fun v hv => sound_blfsCmd hv
  have hvalues : (((d.tree.preorder.flatMap (paraPrints d)).map (printed d.toDoc true)).filter
      fun e => decide (IsValue d e)).map some =
        (d.tree.preorder.flatMap (linkPrints d)).map fun x => some (printed d.toDoc true x) := by
    rw [List.filter_map, List.filter_flatMap, List.map_map]
    have hcongr := List.flatMap_congr fun v (hv : v ∈ d.tree.preorder) => paraPrints_filter hv
    exact congrArg (List.map _) hcongr
  constructor
  · rintro ⟨n, hn⟩
    obtain ⟨⟨hst, htext⟩, hout⟩ := hn (max n steps) (by omega)
    have hrun : blfsXmlMain d.toDoc "cmd" (max n steps) = _ := hs (max n steps) (by omega)
    rw [hrun] at hst htext hout
    have hsafe := hnull.mp (hsound.mp ⟨by rw [hst]; decide, htext⟩).2
    rw [blfsCmd_run hsafe, hvalues] at hout
    exact ⟨hsafe, hout⟩
  · rintro ⟨hsafe, hout⟩
    refine ⟨steps, fun fuel hf => ?_⟩
    have hrun : blfsXmlMain d.toDoc "cmd" fuel = _ := hs fuel hf
    have hnil : ∀ e ∈ ([] : List (Print ι)), e.text.isSome := fun e he => by cases he
    have htext := (hsound.mpr ⟨hnil, hnull.mpr hsafe⟩).2
    rw [hrun]
    refine ⟨⟨?_, htext⟩, ?_⟩
    · rw [blfsCmd_run hsafe]
    · rw [blfsCmd_run hsafe, hvalues, hout]

/-! ### Listed links -/

/-- The lines that the property asks for, said at the links themselves. -/
def listedLine (d : AttrDoc ι) (n : ι) : List (Option (Print ι)) :=
  if IsListed d n then [urlLine d n] else []

theorem listedLine_nil {n v : ι} (hv : v ∈ d.tree.preorder) (hn : d.links.parent n = some v)
    (h : ¬ (IsUlink d n ∧ IsUnder d.toDoc v "para" "listitem")) : listedLine d n = [] :=
  if_neg fun hl => h ((isListed_iff hv hn).mp hl)

theorem linkPrints_second {v n : ι} (hv : v ∈ d.tree.preorder)
    (hu : IsUnder d.toDoc v "para" "listitem") (h : ParaRead d v)
    (hn : secondChild d v = some n) :
    (linkPrints d v).map (fun x => some (printed d.toDoc true x)) = listedLine d n := by
  obtain ⟨hnmem, hnv⟩ := second_mem hv hn
  by_cases hname : d.name n = "ulink"
  · obtain ⟨htype, a, ha, hurl, htext⟩ := h.link n hn hname
    obtain ⟨s, hs⟩ := Option.isSome_iff_exists.mp htext
    obtain ⟨x, hx, hxs⟩ := firstText_eq_some.mp hs
    have hattr := (first_attr hnmem ha).2 hurl
    have hulink : IsUlink d n := ⟨⟨htype, hname⟩, by rw [hattr]; rfl⟩
    have hvalue : linkValue d v = some x := linkValue_eq_some.mpr ⟨n, hn, hname, a, ha, hx⟩
    have hline : urlLine d n = some (printed d.toDoc true x) :=
      urlLine_eq_some.mpr ⟨a, x, hattr, hx, rfl, by rw [printed, hxs]; rfl⟩
    rw [listedLine, if_pos ((isListed_iff hv hnv).mpr ⟨hulink, hu⟩), hline, linkPrints, if_pos hu,
      hvalue]
    rfl
  · have hvalue : linkValue d v = none := by
      simp [linkValue, hn, Option.filter_some, hname]
    rw [listedLine_nil hv hnv fun hl => hname hl.1.1.2, linkPrints, if_pos hu, hvalue]
    rfl

theorem para_children {v : ι} {cs : Forest ι} (ht : (v, cs) ∈ d.tree.subtrees)
    (h : ParaRead d v) :
    ∃ c ss, cs = .node c .nil ss ∧ secondChild d v = ss.head? ∧ listedLine d c = [] ∧
      ∀ n es ts, ss = .node n es ts → ts.roots.flatMap (listedLine d) = [] := by
  have hholds : d.links.Holds v (d.links.children v) cs := d.linked.subtrees ht
  have hnodup := hholds.nodup hholds.not_mem_self
  obtain ⟨hv, hsub⟩ := Forest.preorder_subset ht
  obtain ⟨c, hc, hctext⟩ := exists_first h.text
  have hctype : d.type c ≠ .element := by
    intro hel
    rw [getContent, if_pos hel] at hctext
    cases hctext
  rw [hc] at hholds
  cases cs with
  | nil => cases hholds
  | node b ds ss =>
    obtain ⟨hb, hbv, hds, hss⟩ := hholds
    obtain rfl := Option.some.inj hb
    have hleaf : ds = .nil := by
      cases ds with
      | nil => rfl
      | node x xs ys =>
        refine absurd (d.childType c (hsub List.mem_cons_self) ?_) hctype
        rw [hds.1]
        rfl
    have hsecond : secondChild d v = ss.head? := by
      rw [secondChild, hc]
      exact hss.head
    refine ⟨c, ss, by rw [hleaf], hsecond, ?_, ?_⟩
    · exact listedLine_nil hv hbv fun hl => hctype hl.1.1.1
    · rintro n es ts rfl
      refine List.flatMap_eq_nil_iff.mpr fun r hr => ?_
      have hrv := hss.2.2.2.parent_of_root hr
      have hrts := Forest.roots_subset ts hr
      have hrmem := hsub (Forest.mem_node.mpr (.inr (.inr (Forest.mem_node.mpr
        (.inr (.inr hrts))))))
      -- a link further behind would be the second child as well
      refine listedLine_nil hv hrv fun hl => ?_
      have hrn := hsecond.symm.trans (h.only r hrmem hrv hl.1)
      obtain rfl := Option.some.inj hrn
      have hnss := (Forest.nodup_node.mp hnodup).2.2.2.1
      exact (Forest.nodup_node.mp hnss).2.1 hrts

theorem linkPrints_children {t : ι × Forest ι} (ht : t ∈ d.tree.subtrees)
    (h : IsUnder d.toDoc t.1 "para" "listitem" → ParaRead d t.1) :
    (linkPrints d t.1).map (fun x => some (printed d.toDoc true x)) =
        t.2.roots.flatMap (listedLine d) ∧
      Forest.Quiet (listedLine d) t.2 := by
  obtain ⟨v, cs⟩ := t
  obtain ⟨hv, -⟩ := Forest.preorder_subset ht
  by_cases hu : IsUnder d.toDoc v "para" "listitem"
  · obtain ⟨c, ss, rfl, hsecond, hc, hrest⟩ := para_children ht (h hu)
    cases ss with
    | nil =>
      have hvalue : linkValue d v = none := by
        rw [linkValue, hsecond]
        rfl
      rw [linkPrints, if_pos hu, hvalue]
      simp [hc, Forest.Quiet]
    | node n es ts =>
      have hts := hrest n es ts rfl
      rw [linkPrints_second hv hu (h hu) hsecond]
      simp [hc, hts, Forest.Quiet, Forest.quiet_of_roots hts]
  · have hnil : cs.roots.flatMap (listedLine d) = [] := by
      refine List.flatMap_eq_nil_iff.mpr fun r hr => ?_
      have hrv := (d.linked.subtrees ht).parent_of_root hr
      exact listedLine_nil hv hrv fun hl => hu hl.2
    rw [hnil, linkPrints, if_neg hu]
    exact ⟨rfl, Forest.quiet_of_roots hnil⟩

theorem lists_of_read
    (h : ∀ v ∈ d.tree.preorder, IsUnder d.toDoc v "para" "listitem" → ParaRead d v) :
    (d.tree.preorder.flatMap (linkPrints d)).map (fun x => some (printed d.toDoc true x)) =
      (d.tree.preorder.filter fun n => decide (IsListed d n)).map (urlLine d) := by
  have hchildren := fun t (ht : t ∈ d.tree.subtrees) =>
    linkPrints_children ht (h t.1 (Forest.preorder_subset ht).1)
  -- no paragraph is above the top of the tree
  have htop : d.tree.roots.flatMap (listedLine d) = [] := by
    refine List.flatMap_eq_nil_iff.mpr fun r hr => if_neg ?_
    rintro ⟨-, v, hv, hrv, -⟩
    have hroot := d.linked.parent_of_root hr
    obtain rfl := Option.some.inj (hroot.symm.trans hrv)
    exact d.proot_not_mem hv
  calc (d.tree.preorder.flatMap (linkPrints d)).map (fun x => some (printed d.toDoc true x))
      = d.tree.subtrees.flatMap fun t =>
          (linkPrints d t.1).map fun x => some (printed d.toDoc true x) := by
        rw [← Forest.subtrees_map_fst, List.flatMap_map, List.map_flatMap]
    _ = d.tree.roots.flatMap (listedLine d) ++
          d.tree.subtrees.flatMap fun t => t.2.roots.flatMap (listedLine d) := by
        rw [htop, List.nil_append]
        exact List.flatMap_congr fun t ht => (hchildren t ht).1
    _ = d.tree.preorder.flatMap (listedLine d) :=
        Forest.roots_append_flatMap (Forest.quiet_of_roots htop) fun t ht => (hchildren t ht).2
    _ = (d.tree.preorder.filter fun n => decide (IsListed d n)).map (urlLine d) := flatMap_ite

section
variable (h : (d.tree.preorder.flatMap (linkPrints d)).map
    (fun x => some (printed d.toDoc true x)) =
      (d.tree.preorder.filter fun n => decide (IsListed d n)).map (urlLine d))
  {v : ι} (hv : v ∈ d.tree.preorder) (hu : IsUnder d.toDoc v "para" "listitem")
include h hv hu

theorem link_of_lists {n : ι} (hn : secondChild d v = some n) (hname : d.name n = "ulink")
    (htext : ((d.properties n).bind (firstText d.toDoc)).isSome) :
    d.type n = .element ∧
      ∃ a, d.properties n = some a ∧ d.name a = "url" ∧ (firstText d.toDoc a).isSome := by
  obtain ⟨hnmem, -⟩ := second_mem hv hn
  obtain ⟨s, hs⟩ := Option.isSome_iff_exists.mp htext
  obtain ⟨a, ha, has⟩ := Option.bind_eq_some_iff.mp hs
  obtain ⟨x, hx, -⟩ := firstText_eq_some.mp has
  have hvalue : linkValue d v = some x := linkValue_eq_some.mpr ⟨n, hn, hname, a, ha, hx⟩
  have hmem : some (printed d.toDoc true x) ∈
      (d.tree.preorder.filter fun n => decide (IsListed d n)).map (urlLine d) := by
    rw [← h]
    refine List.mem_map_of_mem (List.mem_flatMap.mpr ⟨v, hv, ?_⟩)
    rw [linkPrints, if_pos hu, hvalue]
    exact List.mem_singleton.mpr rfl
  obtain ⟨m, hm, hline⟩ := List.mem_map.mp hmem
  obtain ⟨hmmem, hlisted⟩ := List.mem_filter.mp hm
  obtain ⟨b, y, hb, hy, hxy, -⟩ := urlLine_eq_some.mp hline
  obtain rfl := printed_injective d.toDoc true hxy
  obtain ⟨hbroot, hurl⟩ := mem_urlAttr hb
  obtain ⟨rfl, rfl⟩ := value_unique hnmem hmmem (first_attr hnmem ha).1 hbroot hx hy
  exact ⟨(of_decide_eq_true hlisted).1.1.1, a, ha, hurl, by rw [has]; rfl⟩

theorem only_of_lists {n : ι} (hn : n ∈ d.tree.preorder) (hnv : d.links.parent n = some v)
    (hulink : IsUlink d n) : secondChild d v = some n := by
  have hlisted : IsListed d n := (isListed_iff hv hnv).mpr ⟨hulink, hu⟩
  have hmem : urlLine d n ∈
      (d.tree.preorder.flatMap (linkPrints d)).map fun x => some (printed d.toDoc true x) := by
    rw [h]
    exact List.mem_map_of_mem (List.mem_filter.mpr ⟨hn, decide_eq_true hlisted⟩)
  obtain ⟨x, hx, hline⟩ := List.mem_map.mp hmem
  obtain ⟨w, hw, hxw⟩ := List.mem_flatMap.mp hx
  obtain ⟨b, y, hb, hy, hxy, -⟩ := urlLine_eq_some.mp hline.symm
  obtain rfl := printed_injective d.toDoc true hxy
  unfold linkPrints at hxw
  split_ifs at hxw with hwu
  · obtain ⟨m, hm, -, a, ha, hax⟩ := linkValue_eq_some.mp (Option.mem_toList.mp hxw)
    obtain ⟨hmmem, hmw⟩ := second_mem hw hm
    obtain ⟨hbroot, -⟩ := mem_urlAttr hb
    obtain ⟨-, rfl⟩ := value_unique hmmem hn (first_attr hmmem ha).1 hbroot hax hy
    obtain rfl := Option.some.inj (hmw.symm.trans hnv)
    exact hm
  · cases hxw

end

/-- For every document, the urls that are printed are those of the links in the list,
exactly when each paragraph of the list is read rightly. -/
theorem printsUrls_iff (d : AttrDoc ι) :
    PrintsUrls d ↔
      ∀ v ∈ d.tree.preorder, IsUnder d.toDoc v "para" "listitem" → ParaRead d v := by
  rw [printsUrls_iff_lists]
  constructor
  · intro ⟨hnull, hlists⟩ v hv hu
    obtain ⟨htext, hlink⟩ := hnull v hv hu
    exact
      { text := htext
        link := fun n hn hname => link_of_lists hlists hv hu hn hname (hlink n hn hname)
        only := fun n hn hnv hulink => only_of_lists hlists hv hu hn hnv hulink }
  · intro h
    refine ⟨fun v hv hu => ?_, lists_of_read h⟩
    have hread := h v hv hu
    refine ⟨hread.text, fun n hn hname => ?_⟩
    obtain ⟨-, a, ha, -, htext⟩ := hread.link n hn hname
    rw [ha]
    exact htext

end

/-- `Download: <ulink url="https://a"/> or <ulink url="https://b"/>`. Nodes 7 and 9 are the
attributes, 8 and 10 their values. -/
def twoLinks : AttrDoc ℕ where
  type n := ([.element, .element, .element, .text, .element, .text, .element, .attribute, .text,
    .attribute, .text] : List NodeType)[n]?.getD .element
  name n := (["sect1", "listitem", "para", "text", "ulink", "text", "ulink", "url", "text", "url",
    "text"])[n]?.getD ""
  content n := ([none, none, none, some "Download: ", none, some " or ", none, none,
    some "https://a", none, some "https://b"] : List (Option String))[n]?.join
  properties n := if n = 4 then some 7 else if n = 6 then some 9 else none
  links :=
    { parent := fun n => ([none, some 0, some 1, some 2, some 2, some 2, some 2, some 4, some 7,
        some 6, some 9] : List (Option ℕ))[n]?.join
      children := fun n => ([some 1, some 2, some 3, none, none, none, none, some 8, none,
        some 10] : List (Option ℕ))[n]?.join
      next := fun n => ([none, none, none, some 4, some 5, some 6] : List (Option ℕ))[n]?.join }
  proot := 0
  tree := .node 1 (.node 2 (.node 3 .nil (.node 4 .nil (.node 5 .nil (.node 6 .nil .nil)))) .nil)
    .nil
  linked := ⟨rfl, rfl, ⟨rfl, rfl, ⟨rfl, rfl, rfl, ⟨rfl, rfl, rfl, ⟨rfl, rfl, rfl,
    ⟨rfl, rfl, rfl, rfl⟩⟩⟩⟩, rfl⟩, rfl⟩
  attrs n := if n = 4 then .node 7 (.node 8 .nil .nil) .nil
    else if n = 6 then .node 9 (.node 10 .nil .nil) .nil else .nil
  attrsLinked := by
    simp only [Forest.preorder, List.append_nil, List.nil_append,
      List.forall_mem_cons]
    refine ⟨rfl, rfl, rfl, ?_, rfl, ?_, ?_⟩
    · exact ⟨rfl, rfl, ⟨rfl, rfl, rfl, rfl⟩, rfl⟩
    · exact ⟨rfl, rfl, ⟨rfl, rfl, rfl, rfl⟩, rfl⟩
    · intro v hv
      cases hv
  attrType := by decide
  nodeType := by decide
  childType := by decide

/-- The second link of a paragraph is not printed. -/
theorem not_printsUrls_twoLinks : ¬ PrintsUrls twoLinks := by
  rintro ⟨n, hn⟩
  obtain ⟨steps, hs⟩ := walk_eq_bodyRun twoLinks.toDoc (blfsXmlBody twoLinks.toDoc "cmd")
  have hrun : blfsXmlMain twoLinks.toDoc "cmd" (max n steps) = _ := hs (max n steps) (by omega)
  obtain ⟨-, h⟩ := hn (max n steps) (by omega)
  rw [hrun] at h
  exact absurd h (by decide)

end HaoosLfs.XmlParse
