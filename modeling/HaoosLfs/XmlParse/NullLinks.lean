import HaoosLfs.XmlParse.Packages

/-!
# Null pointers (`xml.c:143-183`, `blfs-xml.c:143-173`)

Where the two programs follow a null link or hand a null `char *` to `printf`. The walk
is safe when its loop body is safe at each node of the document, and the body is safe at
a node when the few links it follows there are not null.
-/

namespace HaoosLfs.XmlParse
variable {ι β : Type}

/-! ### Safe code -/

/-- The code follows no null pointer, and what it prints has `P`. -/
def Emit.Sound {α : Type} (P : β → Prop) (m : Emit β α) : Prop :=
  m.result.isSome ∧ ∀ e ∈ m.printed, P e

theorem sound_emit {P : β → Prop} (ps : List β) : (emit ps).Sound P ↔ ∀ e ∈ ps, P e :=
  and_iff_right rfl

theorem sound_pure {α : Type} {P : β → Prop} (a : α) : (pure a : Emit β α).Sound P := by
  refine ⟨rfl, fun e he => ?_⟩
  cases he

theorem not_sound_segv {α : Type} {P : β → Prop} : ¬ (segv : Emit β α).Sound P := fun h => by
  cases h.1

theorem sound_bind {α : Type} {P : β → Prop} (m : Emit β Unit) (k : Unit → Emit β α) :
    (m >>= k).Sound P ↔ m.Sound P ∧ (k ()).Sound P := by
  rcases m with ⟨ps, r⟩
  cases r with
  | none =>
    refine iff_of_false (fun h => ?_) fun h => ?_
    · cases h.1
    · cases h.1.1
  | some u =>
    unfold Emit.Sound
    constructor
    · rintro ⟨hr, hp⟩
      exact ⟨⟨rfl, fun e he => hp e (List.mem_append_left _ he)⟩, hr,
        fun e he => hp e (List.mem_append_right _ he)⟩
    · rintro ⟨⟨-, hp⟩, hr, hq⟩
      exact ⟨hr, fun e he => (List.mem_append.mp he).elim (hp e) (hq e)⟩

theorem bodyRun_sound {P : β → Prop} {body : ι → Emit β Unit} {vs : List ι} {acc : List β} :
    ((bodyRun body vs acc).status ≠ .segv ∧ ∀ e ∈ (bodyRun body vs acc).printed, P e) ↔
      (∀ e ∈ acc, P e) ∧ ∀ v ∈ vs, (body v).Sound P := by
  induction vs generalizing acc with
  | nil => simp [bodyRun]
  | cons v vs ih =>
    rw [List.forall_mem_cons]
    cases hr : (body v).result with
    | none =>
      have hno : ¬ (body v).Sound P := fun h => by
        have hsome := h.1
        rw [hr] at hsome
        cases hsome
      simp [bodyRun, hr, hno]
    | some u =>
      have hv : (body v).Sound P ↔ ∀ e ∈ (body v).printed, P e := by
        unfold Emit.Sound
        rw [hr]
        exact and_iff_right rfl
      have hrun : bodyRun body (v :: vs) acc = bodyRun body vs (acc ++ (body v).printed) := by
        simp [bodyRun, hr]
      rw [hrun, ih, List.forall_mem_append, hv, and_assoc]

section
variable [DecidableEq ι] {l : Links ι} {proot : ι} {body : ι → Emit β Unit}

theorem walkRun_succ (fuel : ℕ) (s : WalkState ι) (acc : List β) :
    walkRun l proot body (fuel + 1) s acc =
      match (walkStep l proot body s).result with
      | none => ⟨acc ++ (walkStep l proot body s).printed, .segv⟩
      | some s' => walkRun l proot body fuel s' (acc ++ (walkStep l proot body s).printed) := by
  cases s with
  | out => simp [walkRun_out, walkStep]
  | loop node => rfl
  | climb node => rfl

theorem prefix_printed (fuel : ℕ) (s : WalkState ι) (acc : List β) :
    acc <+: (walkRun l proot body fuel s acc).printed := by
  induction fuel generalizing s acc with
  | zero => cases s <;> exact List.prefix_refl acc
  | succ fuel ih =>
    rw [walkRun_succ]
    cases (walkStep l proot body s).result with
    | none => exact List.prefix_append _ _
    | some s' => exact (List.prefix_append _ _).trans (ih s' _)

theorem printed_prefix_of_le (fuel k : ℕ) (s : WalkState ι) (acc : List β) :
    (walkRun l proot body fuel s acc).printed <+:
      (walkRun l proot body (fuel + k) s acc).printed := by
  induction fuel generalizing s acc with
  | zero =>
    cases s with
    | out => rw [walkRun_out, walkRun_out]
    | loop node => exact prefix_printed _ _ _
    | climb node => exact prefix_printed _ _ _
  | succ fuel ih =>
    rw [Nat.succ_add, walkRun_succ, walkRun_succ]
    cases (walkStep l proot body s).result with
    | none => exact List.prefix_refl _
    | some s' => exact ih s' _

theorem segv_of_le {fuel : ℕ} {s : WalkState ι} {acc : List β}
    (h : (walkRun l proot body fuel s acc).status = .segv) (k : ℕ) :
    (walkRun l proot body (fuel + k) s acc).status = .segv := by
  induction fuel generalizing s acc with
  | zero =>
    cases s with
    | out => cases h
    | loop node => cases h
    | climb node => cases h
  | succ fuel ih =>
    rw [walkRun_succ] at h
    rw [Nat.succ_add, walkRun_succ]
    cases hr : (walkStep l proot body s).result with
    | none => rfl
    | some s' =>
      rw [hr] at h
      exact ih h

end

/-- However far the walk has come, no null pointer was followed and no null content was
printed. -/
def NoNull (r : ℕ → Run (Print ι)) : Prop :=
  ∀ fuel, (r fuel).status ≠ .segv ∧ ∀ e ∈ (r fuel).printed, e.text.isSome

section
variable [DecidableEq ι] (d : Doc ι)

theorem noNull_walk_iff (body : ι → Emit (Print ι) Unit) :
    NoNull (walk d body) ↔
      ∀ v ∈ d.tree.preorder, (body v).Sound fun e => e.text.isSome := by
  obtain ⟨steps, hs⟩ := walk_eq_bodyRun d body
  have hnil : ∀ e ∈ ([] : List (Print ι)), e.text.isSome := fun e he => by cases he
  have hrun : ((bodyRun body d.tree.preorder []).status ≠ .segv ∧
      ∀ e ∈ (bodyRun body d.tree.preorder []).printed, e.text.isSome) ↔
        ∀ v ∈ d.tree.preorder, (body v).Sound fun e => e.text.isSome :=
    bodyRun_sound.trans (and_iff_right hnil)
  rw [← hrun]
  constructor
  · intro h
    rw [← hs steps (Nat.le_refl _)]
    exact h steps
  · rintro ⟨hst, hp⟩ fuel
    rw [← hs (fuel + steps) (by omega)] at hst hp
    refine ⟨fun hsegv => hst (segv_of_le hsegv steps), fun e he => hp e ?_⟩
    exact (printed_prefix_of_le fuel steps _ _).subset he

end

/-! ### The rules -/

section
variable (d : Doc ι)

theorem sound_printContent (newline : Bool) (p : Option ι) :
    (printContent d newline p).Sound (fun e => e.text.isSome) ↔ (p.bind (getContent d)).isSome := by
  cases p with
  | none => exact iff_of_false not_sound_segv (by simp)
  | some n =>
    rw [printContent, deref_some, pure_bind, printNode, Option.bind_some]
    by_cases hn : newline = true ∧ getContent d n = none
    · rw [if_pos hn, hn.2]
      exact iff_of_false not_sound_segv Bool.false_ne_true
    · rw [if_neg hn, sound_emit]
      simp [printed]

theorem sound_printUrl (p : Option ι) :
    (printUrl d p).Sound (fun e => e.text.isSome) ↔ (p.bind (firstText d)).isSome := by
  cases p with
  | none => exact iff_of_false not_sound_segv (by simp)
  | some a =>
    rw [printUrl, deref_some, pure_bind, sound_printContent]
    rfl

/-- `blfs-xml.c`, mode `cmd`: a `para` of a `listitem` has a text first, and after it no
`ulink` without an attribute that has a value. -/
def ParaNoNull (v : ι) : Prop :=
  IsUnder d v "para" "listitem" → (firstText d v).isSome ∧
    ∀ n ∈ (d.links.children v).bind d.links.next,
      d.name n = "ulink" → ((d.properties n).bind (firstText d)).isSome

/-- Mode `pkg` of both programs: what is printed is there. -/
def PkgNoNull (v : ι) : Prop := ∀ pc ∈ pieceOf d v, pc.text.isSome

theorem sound_cmdBody {v p : ι} (hp : d.links.parent v = some p) :
    (cmdBody d v).Sound (fun e => e.text.isSome) ↔ CmdNoNull d v := by
  rw [cmdBody_printed d hp]
  by_cases hn : CmdNoNull d v
  · rw [if_pos hn, cmdPrinted_of_noNull d hn]
    refine iff_of_true ⟨rfl, fun e he => ?_⟩ hn
    obtain ⟨x, hx, rfl⟩ := List.mem_map.mp he
    exact hn.2 x hx
  · rw [if_neg hn]
    refine iff_of_false (fun h => ?_) hn
    cases h.1

theorem sound_paraRule {v p : ι} (hp : d.links.parent v = some p) :
    (paraRule d v).Sound (fun e => e.text.isSome) ↔ ParaNoNull d v := by
  unfold ParaNoNull paraRule
  rw [isNamedUnder_eq d hp, pure_bind]
  by_cases hu : IsUnder d v "para" "listitem"
  · rw [decide_eq_true hu, if_pos rfl, sound_bind, sound_printContent, forall_prop_of_true hu]
    refine and_congr_right fun htext => ?_
    obtain ⟨c, hc⟩ : ∃ c, d.links.children v = some c := by
      cases hc : d.links.children v with
      | none =>
        rw [hc] at htext
        cases htext
      | some c => exact ⟨c, rfl⟩
    rw [hc, deref_some, pure_bind, Option.bind_some]
    cases d.links.next c with
    | none => exact iff_of_true (sound_pure ()) fun n hn => by cases hn
    | some n =>
      simp only [Option.mem_some_iff, forall_eq']
      by_cases hname : d.name n = "ulink"
      · rw [if_pos hname, sound_printUrl, forall_prop_of_true hname]
      · rw [if_neg hname]
        exact iff_of_true (sound_pure ()) fun h => absurd h hname
  · rw [decide_eq_false hu, if_neg Bool.false_ne_true]
    exact iff_of_true (sound_pure ()) fun h => absurd h hu

theorem sound_pkgBody {v p : ι} (hp : d.links.parent v = some p) :
    (pkgBody d v).Sound (fun e => e.text.isSome) ↔ PkgNoNull d v := by
  unfold PkgNoNull pieceOf
  rw [pkgBody_eq d hp]
  split_ifs with hterm hpara hlit hulink
  · rw [sound_printContent]
    simp [firstText]
  · rw [sound_printContent]
    simp [firstText]
  · rw [sound_printContent]
    simp [firstText]
  · rw [sound_printUrl]
    simp
  · exact iff_of_true (sound_pure ()) (by simp)

theorem sound_xmlBody {v p : ι} (hp : d.links.parent v = some p) :
    ((xmlBody d "cmd" v).Sound (fun e => e.text.isSome) ↔ CmdNoNull d v) ∧
      ((xmlBody d "pkg" v).Sound (fun e => e.text.isSome) ↔ PkgNoNull d v) := by
  have hpkg : xmlBody d "pkg" v = pkgBody d v := by simp [xmlBody, modeBody]
  rw [xmlBody_cmd, hpkg]
  exact ⟨sound_cmdBody d hp, sound_pkgBody d hp⟩

theorem sound_blfsXmlBody {v p : ι} (hp : d.links.parent v = some p) :
    ((blfsXmlBody d "cmd" v).Sound (fun e => e.text.isSome) ↔ ParaNoNull d v) ∧
      ((blfsXmlBody d "pkg" v).Sound (fun e => e.text.isSome) ↔ PkgNoNull d v) := by
  have hcmd : blfsXmlBody d "cmd" v = paraRule d v := by simp [blfsXmlBody, modeBody]
  have hpkg : blfsXmlBody d "pkg" v = pkgBody d v := by simp [blfsXmlBody, modeBody]
  rw [hcmd, hpkg]
  exact ⟨sound_paraRule d hp, sound_pkgBody d hp⟩

/-- For every document and both modes, neither program ever follows a null pointer or
prints a null content exactly when none is met at a node of the document. -/
theorem no_null_iff [DecidableEq ι] :
    ((NoNull (xmlMain d "cmd") ↔ ∀ v ∈ d.tree.preorder, CmdNoNull d v) ∧
      (NoNull (xmlMain d "pkg") ↔ ∀ v ∈ d.tree.preorder, PkgNoNull d v)) ∧
    ((NoNull (blfsXmlMain d "cmd") ↔ ∀ v ∈ d.tree.preorder, ParaNoNull d v) ∧
      (NoNull (blfsXmlMain d "pkg") ↔ ∀ v ∈ d.tree.preorder, PkgNoNull d v)) := by
  have hxml : ∀ v ∈ d.tree.preorder, _ := fun v hv =>
    sound_xmlBody d (exists_parent d hv).choose_spec
  have hblfs : ∀ v ∈ d.tree.preorder, _ := fun v hv =>
    sound_blfsXmlBody d (exists_parent d hv).choose_spec
  refine ⟨⟨?_, ?_⟩, ?_, ?_⟩
  · exact (noNull_walk_iff d _).trans (forall₂_congr fun v hv => (hxml v hv).1)
  · exact (noNull_walk_iff d _).trans (forall₂_congr fun v hv => (hxml v hv).2)
  · exact (noNull_walk_iff d _).trans (forall₂_congr fun v hv => (hblfs v hv).1)
  · exact (noNull_walk_iff d _).trans (forall₂_congr fun v hv => (hblfs v hv).2)

end

def emptyDoc (outer inner : String) : Doc ℕ where
  type _ := .element
  name n := (["sect1", outer, inner])[n]?.getD ""
  content _ := none
  properties _ := none
  links :=
    { parent := fun n => ([none, some 0, some 1] : List (Option ℕ))[n]?.join
      children := fun n => ([some 1, some 2] : List (Option ℕ))[n]?.join
      next := fun _ => none }
  proot := 0
  tree := .node 1 (.node 2 .nil .nil) .nil
  linked := ⟨rfl, rfl, ⟨rfl, rfl, rfl, rfl⟩, rfl⟩

/-- An empty command, term, literal or paragraph ends the program. -/
theorem not_noNull_empty :
    ¬ NoNull (xmlMain (emptyDoc "screen" "userinput") "cmd") ∧
      ¬ NoNull (xmlMain (emptyDoc "varlistentry" "term") "pkg") ∧
      ¬ NoNull (blfsXmlMain (emptyDoc "listitem" "para") "cmd") ∧
      ¬ NoNull (blfsXmlMain (emptyDoc "title" "literal") "pkg") := by
  refine ⟨fun h => ?_, fun h => ?_, fun h => ?_, fun h => ?_⟩
  · exact (h 3).1 (by decide)
  · exact (h 3).1 (by decide)
  · exact (h 3).1 (by decide)
  · exact (h 3).1 (by decide)

end HaoosLfs.XmlParse
