import HaoosLfs.Lib.Links

/-!
# Walking through a linked tree

A walk with a single pointer goes down to the first child, else on to the next sibling,
else up through the parents to the first that has a next sibling. It comes to the nodes
in document order, and climbs past each node when its children are done.
-/

namespace HaoosLfs

/-- The walk comes to a node, or climbs from its last child. -/
inductive Move (ι : Type) where
  | enter (v : ι)
  | leave (v : ι)
  deriving DecidableEq

namespace Move

variable {ι : Type}

def entered : Move ι → Option ι
  | .enter v => some v
  | .leave _ => none

def closed (v : ι) : List (Move ι) → List (Move ι)
  | [] => []
  | m :: ms => m :: ms ++ [.leave v]

theorem closed_of_ne_nil {v : ι} {ms : List (Move ι)} (h : ms ≠ []) :
    closed v ms = ms ++ [.leave v] := by
  cases ms with
  | nil => exact absurd rfl h
  | cons m ms => rfl

theorem mem_closed {v : ι} {m : Move ι} {ms : List (Move ι)} (h : m ∈ closed v ms) :
    m ∈ ms ∨ m = .leave v := by
  cases ms with
  | nil => cases h
  | cons m' ms => simpa [closed, or_assoc] using h

theorem entered_closed (v : ι) (ms : List (Move ι)) :
    (closed v ms).filterMap entered = ms.filterMap entered := by
  cases ms with
  | nil => rfl
  | cons m ms => simp [closed, entered, List.filterMap_cons]

end Move

namespace Forest

variable {ι : Type}

def moves : Forest ι → List (Move ι)
  | .nil => []
  | .node v cs ss => .enter v :: (Move.closed v cs.moves ++ ss.moves)

theorem moves_entered (f : Forest ι) : f.moves.filterMap Move.entered = f.preorder := by
  induction f with
  | nil => rfl
  | node v cs ss ihc ihs =>
    rw [moves, List.filterMap_cons, List.filterMap_append, Move.entered_closed, ihc, ihs]
    rfl

theorem mem_of_moves {f : Forest ι} {v : ι} (h : .enter v ∈ f.moves ∨ .leave v ∈ f.moves) :
    v ∈ f.preorder := by
  induction f with
  | nil => simp [moves] at h
  | node x cs ss ihc ihs =>
    rw [mem_node]
    simp only [moves, List.mem_cons, List.mem_append] at h
    rcases h with (h | h | h) | (h | h | h)
    · exact .inl (Move.enter.inj h)
    · rcases Move.mem_closed h with h | h
      · exact .inr (.inl (ihc (.inl h)))
      · cases h
    · exact .inr (.inr (ihs (.inl h)))
    · cases h
    · rcases Move.mem_closed h with h | h
      · exact .inr (.inl (ihc (.inr h)))
      · exact .inl (Move.leave.inj h)
    · exact .inr (.inr (ihs (.inr h)))

end Forest

namespace Links

variable {ι : Type} (l : Links ι)

/-- The moves after `v` has been entered, or after the children of `v`, without a next
sibling, are done. -/
def walk : ℕ → Bool → ι → Option (List (Move ι))
  | 0, _, _ => none
  | fuel + 1, false, v =>
    match l.children v, l.next v with
    | some c, _ => (walk fuel false c).map (.enter c :: ·)
    | none, some w => (walk fuel false w).map (.enter w :: ·)
    | none, none => walk fuel true v
  | fuel + 1, true, v =>
    match l.parent v with
    | none => some []
    | some p =>
      match l.next p with
      | some w => (walk fuel false w).map (fun ms => .leave p :: .enter w :: ms)
      | none => (walk fuel true p).map (.leave p :: ·)

variable {l} {p : ι} {o : Option ι}

theorem walk_closed {v w : ι} {fuel : ℕ} (hw : l.parent w = some v) :
    l.walk (fuel + 1) true w =
      match l.next v with
      | some x => (l.walk fuel false x).map (fun ms => .leave v :: .enter x :: ms)
      | none => (l.walk fuel true v).map (.leave v :: ·) := by
  rw [walk, hw]

theorem Holds.walk {v : ι} {cs ss : Forest ι} (h : l.Holds p o (.node v cs ss)) :
    ∃ n ≤ 2 * (Forest.node v cs ss).size, ∃ w, l.parent w = some p ∧ ∀ fuel,
      l.walk (fuel + n) false v =
        (l.walk fuel true w).map (Move.closed v cs.moves ++ ss.moves ++ ·) := by
  generalize hf : Forest.node v cs ss = f at h
  induction f generalizing v cs ss p o with
  | nil => cases hf
  | node v cs ss ihc ihs =>
    cases hf
    obtain ⟨-, hpv, hcs, hss⟩ := h
    cases cs with
    | nil =>
      have hc : l.children v = none := hcs
      cases ss with
      | nil =>
        have hn : l.next v = none := hss
        refine ⟨1, by simp only [Forest.size]; omega, v, hpv, fun fuel => ?_⟩
        rw [Links.walk, hc, hn]
        simp [Forest.moves, Move.closed]
      | node x cs' ss' =>
        have hn : l.next v = some x := hss.1
        obtain ⟨n, hle, w, hw, hwalk⟩ := ihs rfl hss
        simp only [Forest.size] at hle
        refine ⟨n + 1, by simp only [Forest.size]; omega, w, hw, fun fuel => ?_⟩
        rw [← Nat.add_assoc, Links.walk, hc, hn]
        dsimp only
        rw [hwalk, Option.map_map]
        rfl
    | node c cs1 cs2 =>
      have hc : l.children v = some c := hcs.1
      obtain ⟨n, hle, w, hw, hwalk⟩ := ihc rfl hcs
      simp only [Forest.size] at hle
      have hdown : ∀ fuel, l.walk (fuel + n + 1) false v =
          (l.walk fuel true w).map ((Forest.node c cs1 cs2).moves ++ ·) := by
        intro fuel
        rw [Links.walk, hc]
        dsimp only
        rw [hwalk, Option.map_map]
        rfl
      have hclosed : Move.closed v (Forest.node c cs1 cs2).moves =
          (Forest.node c cs1 cs2).moves ++ [.leave v] :=
            Move.closed_of_ne_nil (by simp [Forest.moves])
      rw [hclosed]
      cases ss with
      | nil =>
        have hn : l.next v = none := hss
        refine ⟨n + 2, by simp only [Forest.size]; omega, v, hpv, fun fuel => ?_⟩
        have hfuel : fuel + (n + 2) = fuel + 1 + n + 1 := by omega
        rw [hfuel, hdown, walk_closed hw, hn]
        dsimp only
        rw [Option.map_map]
        simp [Forest.moves, Function.comp_def]
      | node x cs' ss' =>
        have hn : l.next v = some x := hss.1
        obtain ⟨m, hle', w', hw', hwalk'⟩ := ihs rfl hss
        simp only [Forest.size] at hle'
        refine ⟨n + m + 2, by simp only [Forest.size]; omega, w', hw', fun fuel => ?_⟩
        have hfuel : fuel + (n + m + 2) = fuel + m + 1 + n + 1 := by omega
        rw [hfuel, hdown, walk_closed hw, hn]
        dsimp only
        rw [hwalk', Option.map_map, Option.map_map]
        simp [Forest.moves, Function.comp_def]

theorem Holds.walk_top {top : ι} {f : Forest ι} (h : l.Holds top (l.children top) f)
    (hparent : l.parent top = none) (hnext : l.next top = none) {fuel : ℕ}
    (hfuel : 2 * f.size + 3 ≤ fuel) :
    l.walk fuel false top = some (Move.closed top f.moves) := by
  cases f with
  | nil =>
    have hc : l.children top = none := h
    obtain ⟨n, rfl⟩ : ∃ n, fuel = n + 2 := ⟨fuel - 2, by omega⟩
    rw [Links.walk, hc, hnext]
    dsimp only
    rw [Links.walk, hparent]
    rfl
  | node c cs ss =>
    have hc : l.children top = some c := h.1
    obtain ⟨n, hle, w, hw, hwalk⟩ := h.walk
    obtain ⟨m, rfl⟩ : ∃ m, fuel = m + 2 + n + 1 := ⟨fuel - n - 3, by omega⟩
    rw [Links.walk, hc]
    dsimp only
    rw [hwalk, walk_closed hw, hnext]
    dsimp only
    rw [Links.walk, hparent, Move.closed_of_ne_nil (v := top) (by simp [Forest.moves])]
    simp [Forest.moves]

end Links

end HaoosLfs
