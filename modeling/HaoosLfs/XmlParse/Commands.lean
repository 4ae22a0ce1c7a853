import HaoosLfs.XmlParse.Main

/-!
# The commands printed by `xml -n cmd`

Two rules print the text of a command: the first text child is printed at the
`userinput`, and a `literal` inside a `userinput` prints its own first child and
its next sibling. This module says what the rules print at a node, and when they
follow a null pointer or print a null content.
-/

namespace HaoosLfs.XmlParse
variable {ι : Type} (d : Doc ι)

/-! ### The rules at one node -/

/-- `v` is an `a` element directly inside a `b` element. -/
def IsUnder (v : ι) (a b : String) : Prop :=
  d.name v = a ∧ (d.links.parent v).map d.name = some b

instance (v : ι) (a b : String) : Decidable (IsUnder d v a b) :=
  inferInstanceAs (Decidable (_ ∧ _))

/-- The value of the first attribute, if there is one and it is not empty. -/
def attrValue (v : ι) : Option String :=
  (d.properties v).bind fun a => (d.links.children a).bind d.content

/-- Neither a test command nor a command of a sysv screen. -/
def Kept (v : ι) : Prop :=
  attrValue d v ≠ some "test" ∧ (d.links.parent v).bind (attrValue d) ≠ some "sysv"

instance (v : ι) : Decidable (Kept d v) := inferInstanceAs (Decidable (_ ∧ _))

/-- The first attribute, if there is one, has a value to point to. -/
def AttrSafe (v : ι) : Prop := ∀ a ∈ d.properties v, (d.links.children a).isSome

instance (v : ι) : Decidable (AttrSafe d v) := inferInstanceAs (Decidable (∀ a ∈ _, _))

/-- `userinputRule` follows no null pointer: the command has a child, and the
attributes that the filter looks at are not empty. -/
def UserinputSafe (v : ι) : Prop :=
  IsUnder d v "userinput" "screen" →
    (d.links.children v).isSome ∧
    ((d.links.children v).map d.name = some "text" → AttrSafe d v ∧
      (attrValue d v ≠ some "test" → ∀ p ∈ d.links.parent v, AttrSafe d p))

/-- `literalRule` follows no null pointer: the literal has a child. -/
def LiteralSafe (v : ι) : Prop :=
  IsUnder d v "literal" "userinput" → (d.links.children v).isSome

def CmdSafe (v : ι) : Prop := UserinputSafe d v ∧ LiteralSafe d v

instance (v : ι) : Decidable (UserinputSafe d v) := inferInstanceAs (Decidable (_ → _ ∧ _))
instance (v : ι) : Decidable (LiteralSafe d v) := inferInstanceAs (Decidable (_ → _))
instance (v : ι) : Decidable (CmdSafe d v) := inferInstanceAs (Decidable (_ ∧ _))

/-- `userinputRule` prints the first child of `v`. -/
def UserinputFires (v : ι) : Prop :=
  IsUnder d v "userinput" "screen" ∧ (d.links.children v).map d.name = some "text" ∧ Kept d v

instance (v : ι) : Decidable (UserinputFires d v) := inferInstanceAs (Decidable (_ ∧ _))

/-- One of the two rules prints the first child of `v`. -/
def Fires (v : ι) : Prop := UserinputFires d v ∨ IsUnder d v "literal" "userinput"

instance (v : ι) : Decidable (Fires d v) := inferInstanceAs (Decidable (_ ∨ _))

/-- The nodes whose content is printed at `v`. -/
def cmdPrints (v : ι) : List ι :=
  (if Fires d v then (d.links.children v).toList else []) ++
    (if IsUnder d v "literal" "userinput" then (d.links.next v).toList else [])

/-- The loop body of mode `cmd` meets no null pointer at `v`: the links that the rules
follow are there, and so are the contents that they print. -/
def CmdNoNull (v : ι) : Prop := CmdSafe d v ∧ ∀ n ∈ cmdPrints d v, (getContent d n).isSome

instance (v : ι) : Decidable (CmdNoNull d v) := inferInstanceAs (Decidable (_ ∧ _))

/-- Nodes printed one after the other, up to the first without a content. -/
def printNodes : List ι → Emit (Print ι) Unit
  | [] => pure ()
  | n :: ns => do
    printNode d true n
    printNodes ns

/-- What `printNodes` prints: the nodes before the first without a content. -/
def withContent (ns : List ι) : List ι := ns.takeWhile fun n => (getContent d n).isSome

theorem printNodes_eq (ns : List ι) :
    printNodes d ns =
      ⟨(withContent d ns).map (printed d true),
        if ∀ n ∈ ns, (getContent d n).isSome then some () else none⟩ := by
  induction ns with
  | nil => simp [printNodes, withContent]; rfl
  | cons n ns ih =>
    rw [printNodes, printNode, ih]
    cases hn : getContent d n with
    | none =>
      simp only [withContent, and_self, if_true, segv_bind]
      simp [hn, segv]
    | some s => simp [withContent, hn]

theorem printNodes_single (n : ι) : printNodes d [n] = printNode d true n := bind_pure_unit _

theorem printContent_toList {p : Option ι} (hp : p.isSome) :
    printContent d true p = printNodes d p.toList := by
  obtain ⟨n, rfl⟩ := Option.isSome_iff_exists.mp hp
  exact (printNodes_single d n).symm

theorem cmdPrints_near : Links.Near d.links (cmdPrints d) := by
  intro v x hx
  simp only [cmdPrints, List.mem_append] at hx
  rcases hx with hx | hx
  · split_ifs at hx
    · exact .inl (by simpa using hx)
    · cases hx
  · split_ifs at hx
    · exact .inr (by simpa using hx)
    · cases hx

theorem not_under_both {v : ι} {a b a' b' : String} (h : IsUnder d v a b) (hne : a ≠ a') :
    ¬ IsUnder d v a' b' := fun h' => hne (h.1.symm.trans h'.1)

theorem not_literal_of_userinput {v : ι} (h : IsUnder d v "userinput" "screen") :
    ¬ IsUnder d v "literal" "userinput" := not_under_both d h (by decide)

theorem isNamedUnder_eq {v p : ι} (hp : d.links.parent v = some p) (a b : String) :
    isNamedUnder d v a b = pure (decide (IsUnder d v a b)) := by
  by_cases ha : d.name v = a <;> simp [isNamedUnder, IsUnder, ha, hp]

theorem firstAttrIs_safe {v : ι} (h : AttrSafe d v) (s : String) :
    firstAttrIs d v s = pure (decide (attrValue d v = some s)) := by
  cases ha : d.properties v with
  | none => simp [firstAttrIs, attrValue, ha]
  | some a =>
    obtain ⟨c, hc⟩ := Option.isSome_iff_exists.mp (h a ha)
    simp [firstAttrIs, attrValue, ha, hc]

theorem firstAttrIs_unsafe {v : ι} (h : ¬ AttrSafe d v) (s : String) :
    firstAttrIs d v s = segv := by
  cases ha : d.properties v with
  | none => exact absurd (fun a hm => by rw [ha] at hm; cases hm) h
  | some a =>
    cases hc : d.links.children a with
    | none => simp [firstAttrIs, ha, hc]
    | some c =>
      refine absurd (fun b hb => ?_) h
      have hab : a = b := Option.some.inj (ha.symm.trans hb)
      rw [← hab, hc]
      rfl

theorem keepCommand_safe {v p : ι} (hp : d.links.parent v = some p) (hv : AttrSafe d v)
    (hs : attrValue d v ≠ some "test" → AttrSafe d p) :
    keepCommand d v = pure (decide (Kept d v)) := by
  by_cases ht : attrValue d v = some "test"
  · simp [keepCommand, Kept, firstAttrIs_safe d hv, ht]
  · simp [keepCommand, Kept, firstAttrIs_safe d hv, firstAttrIs_safe d (hs ht), ht, hp]

theorem keepCommand_unsafe {v p : ι} (hp : d.links.parent v = some p)
    (h : ¬ (AttrSafe d v ∧ (attrValue d v ≠ some "test" → AttrSafe d p))) :
    keepCommand d v = segv := by
  by_cases hv : AttrSafe d v
  · have ht : attrValue d v ≠ some "test" := fun e => h ⟨hv, fun hne => absurd e hne⟩
    have hs : ¬ AttrSafe d p := fun hs => h ⟨hv, fun _ => hs⟩
    simp [keepCommand, firstAttrIs_safe d hv, firstAttrIs_unsafe d hs, ht, hp]
  · simp [keepCommand, firstAttrIs_unsafe d hv]

theorem userinputRule_eq {v p : ι} (hp : d.links.parent v = some p) :
    userinputRule d v =
      if UserinputSafe d v then
        printNodes d (if UserinputFires d v then (d.links.children v).toList else [])
      else segv := by
  by_cases hu : IsUnder d v "userinput" "screen"
  · cases hc : d.links.children v with
    | none => simp [userinputRule, isNamedUnder_eq d hp, UserinputSafe, hu, hc]
    | some c =>
      by_cases ht : d.name c = "text"
      · by_cases hs : AttrSafe d v ∧ (attrValue d v ≠ some "test" → AttrSafe d p)
        · have hsafe : UserinputSafe d v := by
            refine fun _ => ⟨by rw [hc]; rfl, fun _ => ⟨hs.1, fun hne q hq => ?_⟩⟩
            have hpq : p = q := Option.some.inj (hp.symm.trans hq)
            exact hpq ▸ hs.2 hne
          by_cases hk : Kept d v
          · simp [userinputRule, isNamedUnder_eq d hp, keepCommand_safe d hp hs.1 hs.2, hsafe,
              UserinputFires, printContent_toList, hu, hc, ht, hk]
          · simp [userinputRule, isNamedUnder_eq d hp, keepCommand_safe d hp hs.1 hs.2, hsafe,
              UserinputFires, printNodes, hu, hc, ht, hk]
        · have hsafe : ¬ UserinputSafe d v := by
            intro h
            obtain ⟨h1, h2⟩ := (h hu).2 (by rw [hc, Option.map_some, ht])
            exact hs ⟨h1, fun hne => h2 hne p hp⟩
          simp [userinputRule, isNamedUnder_eq d hp, keepCommand_unsafe d hp hs, hsafe, hu, hc, ht]
      · have hsafe : UserinputSafe d v := by
          refine fun _ => ⟨by rw [hc]; rfl, fun h => ?_⟩
          rw [hc] at h
          exact absurd (Option.some.inj h) ht
        simp [userinputRule, isNamedUnder_eq d hp, hsafe, UserinputFires, printNodes, hu, hc, ht]
  · have hsafe : UserinputSafe d v := fun h => absurd h hu
    simp [userinputRule, isNamedUnder_eq d hp, hsafe, UserinputFires, printNodes, hu]

theorem literalRule_eq {v p : ι} (hp : d.links.parent v = some p) :
    literalRule d v =
      if LiteralSafe d v then
        printNodes d (if IsUnder d v "literal" "userinput" then
          (d.links.children v).toList ++ (d.links.next v).toList else [])
      else segv := by
  by_cases hl : IsUnder d v "literal" "userinput"
  · cases hc : d.links.children v with
    | none => simp [literalRule, isNamedUnder_eq d hp, printContent, LiteralSafe, hl, hc]
    | some c =>
      have hsafe : LiteralSafe d v := fun _ => by rw [hc]; rfl
      cases hn : d.links.next v with
      | none => simp [literalRule, isNamedUnder_eq d hp, printContent, printNodes, hsafe, hl, hc,
        hn]
      | some n => simp [literalRule, isNamedUnder_eq d hp, printContent, printNodes, hsafe, hl, hc,
        hn]
  · have hsafe : LiteralSafe d v := fun h => absurd h hl
    simp [literalRule, isNamedUnder_eq d hp, printNodes, hsafe, hl]

/-- The loop body of mode `cmd`, at a node with a parent: where it follows no null link it
prints `cmdPrints`, up to the first null content; elsewhere it prints nothing. -/
theorem cmdBody_eq {v p : ι} (hp : d.links.parent v = some p) :
    cmdBody d v = if CmdSafe d v then printNodes d (cmdPrints d v) else segv := by
  rw [cmdBody, userinputRule_eq d hp, literalRule_eq d hp]
  by_cases hu : UserinputSafe d v
  · by_cases hl : LiteralSafe d v
    · by_cases hlit : IsUnder d v "literal" "userinput"
      · have hf : ¬ UserinputFires d v := fun h => not_literal_of_userinput d h.1 hlit
        simp [CmdSafe, cmdPrints, Fires, printNodes, hu, hl, hf, hlit]
      · simp [CmdSafe, cmdPrints, Fires, printNodes, hu, hl, hlit]
    · have hnu : ¬ UserinputFires d v := fun h =>
        hl fun h' => absurd h' (not_literal_of_userinput d h.1)
      simp [CmdSafe, printNodes, hu, hl, hnu]
  · simp [CmdSafe, hu]

/-- The nodes that are printed at `v` before the program dies there, all of `cmdPrints` if it
does not. -/
def cmdPrinted (v : ι) : List ι := if CmdSafe d v then withContent d (cmdPrints d v) else []

theorem cmdPrinted_of_noNull {v : ι} (h : CmdNoNull d v) : cmdPrinted d v = cmdPrints d v := by
  rw [cmdPrinted, if_pos h.1]
  exact List.takeWhile_eq_self_iff.mpr h.2

theorem cmdPrinted_near : Links.Near d.links (cmdPrinted d) := by
  intro v x hx
  unfold cmdPrinted at hx
  split_ifs at hx
  · exact cmdPrints_near d v x (List.takeWhile_subset _ hx)
  · cases hx

theorem cmdBody_printed {v p : ι} (hp : d.links.parent v = some p) :
    cmdBody d v =
      ⟨(cmdPrinted d v).map (printed d true), if CmdNoNull d v then some () else none⟩ := by
  rw [cmdBody_eq d hp, printNodes_eq]
  unfold cmdPrinted CmdNoNull
  by_cases hs : CmdSafe d v
  · simp [hs]
  · simp [hs, segv]

end HaoosLfs.XmlParse
