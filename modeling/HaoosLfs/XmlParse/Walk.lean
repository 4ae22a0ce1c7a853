import HaoosLfs.Lib.Links
import HaoosLfs.Lib.Lists

/-!
# The document walk of `os-build/xml_parse/xml.c` and `blfs-xml.c`

libxml2 nodes are pointers with parent, children and next links. Both programs
share one stackless walk: a single pointer goes down, right, or climbs through
the parents. The loop body prints; a null pointer that is followed ends the
process.
-/

namespace HaoosLfs.XmlParse

/-- `xmlElementType`, as far as the two programs look at it. -/
inductive NodeType where
  | element
  | attribute
  | text
  | entityRef
  | pi
  | comment
  deriving DecidableEq

/-- C code that prints: what it has printed, and its value unless a null pointer
was followed. -/
structure Emit (β α : Type) where
  printed : List β
  result : Option α
  deriving DecidableEq

instance (β : Type) : Monad (Emit β) where
  pure a := ⟨[], some a⟩
  bind m k :=
    match m.result with
    | none => ⟨m.printed, none⟩
    | some a => ⟨m.printed ++ (k a).printed, (k a).result⟩

def emit {β : Type} (ps : List β) : Emit β Unit := ⟨ps, some ()⟩
def segv {β α : Type} : Emit β α := ⟨[], none⟩

def deref {β ι : Type} : Option ι → Emit β ι
  | none => segv
  | some n => pure n

section
variable {α β γ ι : Type}

@[simp] theorem pure_printed (a : α) : (pure a : Emit β α).printed = [] := rfl
@[simp] theorem pure_result (a : α) : (pure a : Emit β α).result = some a := rfl
@[simp] theorem pure_bind (a : α) (k : α → Emit β γ) : (pure a >>= k : Emit β γ) = k a := rfl
@[simp] theorem segv_bind (k : α → Emit β γ) : (segv >>= k : Emit β γ) = segv := rfl
@[simp] theorem deref_some (n : ι) : (deref (some n) : Emit β ι) = pure n := rfl
@[simp] theorem deref_none : (deref none : Emit β ι) = segv := rfl
@[simp] theorem emit_printed (ps : List β) : (emit ps).printed = ps := rfl
@[simp] theorem emit_result (ps : List β) : (emit ps).result = some () := rfl
@[simp] theorem emit_bind (ps : List β) (k : Unit → Emit β γ) :
    (emit ps >>= k : Emit β γ) = ⟨ps ++ (k ()).printed, (k ()).result⟩ := rfl

@[simp] theorem bind_pure_unit (m : Emit β Unit) : (m >>= fun _ => pure ()) = m := by
  rcases m with ⟨ps, r⟩
  cases r with
  | none => rfl
  | some u => simp [Bind.bind]

end

/-- A parsed document: `xmlReadFile` has linked the nodes below the root element
consistently. `properties` points to the first attribute, and the value of an
attribute hangs below it like the children of an element. Nothing is said about
what stands beside the root at document level. -/
structure Doc (ι : Type) where
  type : ι → NodeType
  name : ι → String
  content : ι → Option String
  properties : ι → Option ι
  links : Links ι
  proot : ι
  tree : Forest ι
  linked : links.Holds proot (links.children proot) tree

theorem Doc.proot_not_mem {ι : Type} (d : Doc ι) : d.proot ∉ d.tree.preorder :=
  d.linked.not_mem_self

theorem Doc.nodup {ι : Type} (d : Doc ι) : d.tree.preorder.Nodup :=
  d.linked.nodup d.proot_not_mem

/-! ### The loop -/

inductive Status where
  | running
  | exited
  | segv
  deriving DecidableEq

/-- What a process has printed so far and how it stands. -/
structure Run (β : Type) where
  printed : List β
  status : Status
  deriving DecidableEq

/-- `loop` is the test of the outer `for`, `climb` the test of the inner one,
`out` the label `__out`. -/
inductive WalkState (ι : Type) where
  | loop (node : Option ι)
  | climb (node : Option ι)
  | out

variable {ι β : Type} [DecidableEq ι]

def walkStep (l : Links ι) (proot : ι) (body : ι → Emit β Unit) :
    WalkState ι → Emit β (WalkState ι)
  | .loop none => pure .out
  | .loop (some node) => do
    body node
    match l.children node with
    | some c => pure (.loop (some c))
    | none =>
      match l.next node with
      | some n => pure (.loop (some n))
      | none => pure (.climb (l.parent node))
  | .climb node =>
    if node = some proot then pure .out
    else do
      let m ← deref node
      match l.next m with
      -- `break`, and then `node == proot` is tested once more
      | some n => pure (if n = proot then .out else .loop (some n))
      | none => pure (.climb (l.parent m))
  | .out => pure .out

def walkRun (l : Links ι) (proot : ι) (body : ι → Emit β Unit) :
    ℕ → WalkState ι → List β → Run β
  | _, .out, acc => ⟨acc, .exited⟩
  | 0, _, acc => ⟨acc, .running⟩
  | fuel + 1, s, acc =>
    let r := walkStep l proot body s
    match r.result with
    | none => ⟨acc ++ r.printed, .segv⟩
    | some s' => walkRun l proot body fuel s' (acc ++ r.printed)

/-- The walk over a document, started at the first child of the root. -/
def walk (d : Doc ι) (body : ι → Emit β Unit) (fuel : ℕ) : Run β :=
  walkRun d.links d.proot body fuel (.loop (d.links.children d.proot)) []

/-! ### The walk as a fold over document order -/

/-- The loop body executed at each node of a list, up to the first fault. -/
def bodyRun (body : ι → Emit β Unit) : List ι → List β → Run β
  | [], acc => ⟨acc, .exited⟩
  | v :: vs, acc =>
    match (body v).result with
    | none => ⟨acc ++ (body v).printed, .segv⟩
    | some _ => bodyRun body vs (acc ++ (body v).printed)

def Run.andThen (r : Run β) (k : List β → Run β) : Run β :=
  match r.status with
  | .exited => k r.printed
  | _ => r

omit [DecidableEq ι] in
theorem bodyRun_append (body : ι → Emit β Unit) (vs ws : List ι) (acc : List β) :
    bodyRun body (vs ++ ws) acc = (bodyRun body vs acc).andThen (bodyRun body ws) := by
  induction vs generalizing acc with
  | nil => rfl
  | cons v vs ih =>
    simp only [List.cons_append, bodyRun]
    cases hb : (body v).result with
    | none => rfl
    | some u => exact ih (acc ++ (body v).printed)

omit [DecidableEq ι] in
/-- The output is what the bodies print up to the first that faults, and what that one
prints before it. -/
theorem bodyRun_eq {body : ι → Emit β Unit} {done : ι → Prop} [DecidablePred done]
    {g : ι → List β} {vs : List ι}
    (hb : ∀ v ∈ vs, body v = ⟨g v, if done v then some () else none⟩) (acc : List β) :
    bodyRun body vs acc =
      ⟨acc ++ (upToFirst (fun v => decide (done v)) vs).flatMap g,
        if ∀ v ∈ vs, done v then .exited else .segv⟩ := by
  induction vs generalizing acc with
  | nil => simp [bodyRun, upToFirst]
  | cons v vs ih =>
    have hv := hb v (List.mem_cons_self ..)
    have hvs := ih fun w hw => hb w (List.mem_cons_of_mem _ hw)
    by_cases hd : done v
    · simp [bodyRun, upToFirst, hv, hvs, hd]
    · simp [bodyRun, upToFirst, hv, hd]

theorem andThen_assoc (r : Run β) (k m : List β → Run β) :
    (r.andThen k).andThen m = r.andThen fun acc => (k acc).andThen m := by
  rcases r with ⟨ps, st⟩
  cases st <;> rfl

section
variable {l : Links ι} {proot : ι} {body : ι → Emit β Unit}

theorem walkRun_visit (fuel : ℕ) (v : ι) (acc : List β) :
    walkRun l proot body (fuel + 1) (.loop (some v)) acc =
      (bodyRun body [v] acc).andThen (walkRun l proot body fuel
        (match l.children v with
        | some c => .loop (some c)
        | none =>
          match l.next v with
          | some n => .loop (some n)
          | none => .climb (l.parent v))) := by
  simp only [walkRun, walkStep, bodyRun]
  rcases hb : body v with ⟨ps, r⟩
  cases r with
  | none => rfl
  | some u =>
    cases hc : l.children v with
    | some c => simp [Run.andThen, Bind.bind]
    | none =>
      cases hn : l.next v with
      | some n => simp [Run.andThen, Bind.bind]
      | none => simp [Run.andThen, Bind.bind]

theorem walkRun_climb_next {v n : ι} (fuel : ℕ) (acc : List β) (hv : v ≠ proot)
    (hn : l.next v = some n) (hnr : n ≠ proot) :
    walkRun l proot body (fuel + 1) (.climb (some v)) acc =
      walkRun l proot body fuel (.loop (some n)) acc := by
  have hvr : (some v : Option ι) ≠ some proot := fun e => hv (Option.some.inj e)
  simp [walkRun, walkStep, hvr, hn, hnr]

theorem walkRun_climb_up {v : ι} (fuel : ℕ) (acc : List β) (hv : v ≠ proot)
    (hn : l.next v = none) :
    walkRun l proot body (fuel + 1) (.climb (some v)) acc =
      walkRun l proot body fuel (.climb (l.parent v)) acc := by
  have hvr : (some v : Option ι) ≠ some proot := fun e => hv (Option.some.inj e)
  simp [walkRun, walkStep, hvr, hn]

/-- The walk of a nonempty sibling chain executes the body in document order and
then climbs to the parent of the chain. -/
theorem walkRun_forest {f : Forest ι} {p v : ι} (h : l.Holds p (some v) f)
    (hr : proot ∉ f.preorder) :
    ∃ steps, ∀ fuel acc, walkRun l proot body (steps + fuel) (.loop (some v)) acc =
      (bodyRun body f.preorder acc).andThen (walkRun l proot body fuel (.climb (some p))) := by
  induction f generalizing p v with
  | nil => cases h
  | node w cs ss ihc ihs =>
    obtain ⟨hw, hp, hcs, hss⟩ := h
    obtain rfl : v = w := Option.some.inj hw
    have hrv : v ≠ proot := fun e => hr (e ▸ List.mem_cons_self ..)
    have hrc : proot ∉ cs.preorder := fun hm => hr (Forest.mem_node.mpr (.inr (.inl hm)))
    have hrs : proot ∉ ss.preorder := fun hm => hr (Forest.mem_node.mpr (.inr (.inr hm)))
    have hch := hcs.head
    have hnx := hss.head
    have hsplit : (Forest.node v cs ss).preorder = [v] ++ (cs.preorder ++ ss.preorder) := rfl
    cases ss with
    | nil =>
      cases cs with
      | nil =>
        refine ⟨1, fun fuel acc => ?_⟩
        rw [Nat.add_comm 1 fuel, walkRun_visit, hch, hnx, hp]
        rfl
      | node c ds ts =>
        obtain ⟨n, hn⟩ := ihc (hch ▸ hcs) hrc
        refine ⟨1 + n + 1, fun fuel acc => ?_⟩
        have hf : 1 + n + 1 + fuel = (n + (fuel + 1)) + 1 := by omega
        rw [hf, walkRun_visit, hch, hsplit, bodyRun_append, andThen_assoc]
        congr 1
        funext acc'
        simp only [Forest.head?_node, hn, Forest.preorder_nil, List.append_nil]
        congr 1
        funext acc''
        rw [walkRun_climb_up fuel acc'' hrv hnx, hp]
    | node s us ts =>
      have hsr : s ≠ proot := fun e => hrs (e ▸ List.mem_cons_self ..)
      obtain ⟨m, hm⟩ := ihs (hnx ▸ hss) hrs
      cases cs with
      | nil =>
        refine ⟨1 + m, fun fuel acc => ?_⟩
        have hf : 1 + m + fuel = (m + fuel) + 1 := by omega
        rw [hf, walkRun_visit, hch, hnx, hsplit, bodyRun_append, andThen_assoc]
        congr 1
        funext acc'
        exact hm fuel acc'
      | node c ds us' =>
        obtain ⟨n, hn⟩ := ihc (hch ▸ hcs) hrc
        refine ⟨1 + n + 1 + m, fun fuel acc => ?_⟩
        have hf : 1 + n + 1 + m + fuel = (n + ((m + fuel) + 1)) + 1 := by omega
        rw [hf, walkRun_visit, hch, hsplit, bodyRun_append, andThen_assoc]
        congr 1
        funext acc'
        rw [bodyRun_append, andThen_assoc]
        simp only [Forest.head?_node, hn]
        congr 1
        funext acc''
        rw [walkRun_climb_next (m + fuel) acc'' hrv hnx hsr]
        exact hm fuel acc''

end

theorem walkRun_out (l : Links ι) (proot : ι) (body : ι → Emit β Unit) (fuel : ℕ)
    (acc : List β) : walkRun l proot body fuel .out acc = ⟨acc, .exited⟩ := by
  cases fuel <;> rfl

/-- With enough fuel the walk is the body folded over document order. -/
theorem walk_eq_bodyRun (d : Doc ι) (body : ι → Emit β Unit) :
    ∃ steps, ∀ fuel, steps ≤ fuel → walk d body fuel = bodyRun body d.tree.preorder [] := by
  have hd := d.linked
  have hr := d.proot_not_mem
  unfold walk
  cases ht : d.tree with
  | nil =>
    rw [ht] at hd
    have hc : d.links.children d.proot = none := hd
    refine ⟨1, fun fuel hfuel => ?_⟩
    obtain ⟨k, rfl⟩ : ∃ k, fuel = k + 1 := ⟨fuel - 1, by omega⟩
    rw [hc]
    exact walkRun_out _ _ _ _ _
  | node v cs ss =>
    rw [ht] at hd hr
    have hc : d.links.children d.proot = some v := hd.1
    have hrun : ∃ n, ∀ fuel acc, walkRun d.links d.proot body (n + fuel) (.loop (some v)) acc =
        (bodyRun body (Forest.node v cs ss).preorder acc).andThen
          (walkRun d.links d.proot body fuel (.climb (some d.proot))) :=
      walkRun_forest (hc ▸ hd) hr
    obtain ⟨n, hn⟩ := hrun
    refine ⟨n + 1, fun fuel hfuel => ?_⟩
    obtain ⟨k, rfl⟩ : ∃ k, fuel = n + (k + 1) := ⟨fuel - n - 1, by omega⟩
    rw [hc, hn]
    have hout : walkRun d.links d.proot body (k + 1) (.climb (some d.proot)) =
        fun acc => ⟨acc, .exited⟩ := by
      funext acc
      simp [walkRun, walkStep, walkRun_out]
    rw [hout]
    rcases hb : bodyRun body (Forest.node v cs ss).preorder [] with ⟨ps, st⟩
    cases st <;> rfl

end HaoosLfs.XmlParse
