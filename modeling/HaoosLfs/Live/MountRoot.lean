import HaoosLfs.Lib.Search
import HaoosLfs.Lib.ShellWords

/-!
# Finding the live system (`initramfs-live.sh:291-363`)

`do_mount_root_live` looks for a CD with the label `mylive`, and then for a removable disk
with a marked partition. Both are mounted on the same directory, the disk above the CD.
-/

namespace HaoosLfs.Live
open Text ShellWords

structure Drive where
  name : Text
  volume : Text

structure Disk where
  name : Text
  removable : Bool

/-- The devices of a machine: the drives that the kernel lists, the disks of `/sys/block`,
and the names in `/dev`, in the order of a pattern's expansion. `blkid` tells the devices
that `blkid` knows, `mounts` those that can be mounted, and `label` what the file `LABEL`
of the file system on a device contains, if there is one. -/
structure Machine where
  drives : List Drive
  disks : List Disk
  dev : List Text
  blkid : Text → Bool
  mounts : Text → Bool
  label : Text → Option Text

/-- What is mounted on `/mnt/ISO`, the last mount first, and the devices that were read or
tried, in this order. -/
structure Mounts where
  stack : List Text
  touched : List Text
  deriving DecidableEq

def Mounts.touch (m : Mounts) (d : Text) : Mounts := { m with touched := m.touched ++ [d] }
def Mounts.mount (m : Mounts) (d : Text) : Mounts := { m with stack := d :: m.stack }
def Mounts.umount (m : Mounts) : Mounts := { m with stack := m.stack.tail }

/-- `echo "${LABEL}" | grep -o "[^ ]\+\(\+[^ ]\+\)*"`: each run of other characters than
blanks, on a line of its own. -/
def labelOf (volume : Text) : Text :=
  joinLines ((volume.splitOnP fun c => c = ' ' || c = '\n').filter fun w => decide (w ≠ []))

def tryDrive (m : Mounts) (i : Drive) : Mounts × Bool :=
  let m := m.touch i.name
  if labelOf i.volume = "mylive".toList then (m.mount i.name, true) else (m, false)

section
variable (h : Machine)

/-- `[ -f /mnt/ISO/LABEL ]` and `grep -q "HaoOS's RELEASE" /mnt/ISO/LABEL` -/
def labelMatches (m : Mounts) : Bool :=
  match m.stack.head?.bind h.label with
  | some text => contains text "HaoOS's RELEASE".toList
  | none => false

def tryPartition (m : Mounts) (j : Text) : Mounts × Bool :=
  let m := m.touch j
  if h.mounts j then
    let m := m.mount j
    if labelMatches h m then (m, true) else (m.umount, false)
  else (m, false)

/-- `blkid /dev/$(basename $i)* -o device` -/
def listed (i : Disk) : List Text := h.dev.filter fun d => i.name.isPrefixOf d && h.blkid d

/-- One turn of the outer loop; the break of the inner one leaves both. -/
def tryDisk (m : Mounts) (i : Disk) : Mounts × Bool :=
  if i.removable then forBreak (tryPartition h) (listed h i) m else (m, false)

def doMountRootLive : Mounts :=
  let m := (forBreak tryDrive h.drives ⟨[], []⟩).1
  (forBreak (tryDisk h) h.disks m).1

/-! ### What is looked for -/

def scanOrder : List Text := h.disks.flatMap fun i => if i.removable then listed h i else []

def isRelease (d : Text) : Bool :=
  h.mounts d && (h.label d).any fun text => contains text "HaoOS's RELEASE".toList

/-- The disk itself, or its name and a number. -/
def isPartitionOf (i : Disk) (d : Text) : Bool :=
  i.name.isPrefixOf d && (d.drop i.name.length).all Char.isDigit

def onRemovable (d : Text) : Bool := h.disks.any fun i => i.removable && isPartitionOf i d

def isLive (i : Drive) : Bool := decide (labelOf i.volume = "mylive".toList)

def upTo {α : Type} (p : α → Bool) (xs : List α) : List α :=
  (xs.takeWhile fun x => !p x) ++ (xs.find? p).toList

/-- The first CD is mounted and above it the first marked partition of a removable disk,
and what comes later in the lists was not touched. -/
structure IsExact (m : Mounts) : Prop where
  stack : m.stack = ((scanOrder h).find? fun d => isRelease h d && onRemovable h d).toList ++
    ((h.drives.find? isLive).map Drive.name).toList
  touched : m.touched = (upTo isLive h.drives).map Drive.name ++
    upTo (fun d => isRelease h d && onRemovable h d) (scanOrder h)

end

/-! ### The turns -/

theorem tryDrive_eq (m : Mounts) (i : Drive) :
    tryDrive m i =
      if isLive i then ((m.touch i.name).mount i.name, true) else (m.touch i.name, false) := by
  unfold tryDrive isLive
  dsimp only
  simp only [decide_eq_true_eq]

theorem tryPartition_eq (h : Machine) (m : Mounts) (j : Text) :
    tryPartition h m j =
      if isRelease h j then ((m.touch j).mount j, true) else (m.touch j, false) := by
  have hlabel : labelMatches h ((m.touch j).mount j) =
      (h.label j).any fun text => contains text "HaoOS's RELEASE".toList := by
    unfold labelMatches Mounts.mount
    rw [List.head?_cons, Option.bind_some]
    cases h.label j with
    | none => rfl
    | some text => rfl
  unfold tryPartition isRelease
  dsimp only
  rw [hlabel]
  cases h.mounts j with
  | false => rfl
  | true => rfl

theorem tryDisk_eq (h : Machine) :
    tryDisk h = fun m i =>
      forBreak (tryPartition h) (if i.removable then listed h i else []) m := by
  funext m i
  unfold tryDisk
  split_ifs
  · rfl
  · rfl

/-! ### The searches -/

theorem foldl_touch {α : Type} (name : α → Text) (xs : List α) (m : Mounts) :
    xs.foldl (fun m x => m.touch (name x)) m =
      { m with touched := m.touched ++ xs.map name } := by
  induction xs generalizing m with
  | nil => simp
  | cons x xs ih =>
    rw [List.foldl_cons, ih]
    simp [Mounts.touch]

theorem search_eq {α : Type} {body : Mounts → α → Mounts × Bool} {p : α → Bool} {name : α → Text}
    (hbody : ∀ m x, body m x =
      if p x then ((m.touch (name x)).mount (name x), true) else (m.touch (name x), false))
    (xs : List α) (m : Mounts) :
    (forBreak body xs m).1 =
      ⟨((xs.find? p).map name).toList ++ m.stack, m.touched ++ (upTo p xs).map name⟩ := by
  rw [forBreak_find hbody]
  unfold upTo
  cases hx : xs.find? p with
  | some x =>
    dsimp only
    rw [foldl_touch name]
    simp [Mounts.touch, Mounts.mount]
  | none =>
    have hall : xs.takeWhile (fun x => !p x) = xs := by
      rw [List.takeWhile_eq_self_iff]
      intro x hmem
      simpa using List.find?_eq_none.mp hx x hmem
    dsimp only
    rw [foldl_touch name, hall]
    simp

/-- The mounts after both loops, whatever the devices are. -/
theorem doMountRootLive_eq (h : Machine) :
    doMountRootLive h =
      ⟨((scanOrder h).find? (isRelease h)).toList ++
          ((h.drives.find? isLive).map Drive.name).toList,
        (upTo isLive h.drives).map Drive.name ++ upTo (isRelease h) (scanOrder h)⟩ := by
  have hdisks : ∀ m, (forBreak (tryDisk h) h.disks m).1 =
      ⟨((scanOrder h).find? (isRelease h)).toList ++ m.stack,
        m.touched ++ upTo (isRelease h) (scanOrder h)⟩ := by
    intro m
    rw [tryDisk_eq, forBreak_nested]
    have hsearch := search_eq (fun m j => tryPartition_eq h m j) (scanOrder h) m
    simpa [scanOrder] using hsearch
  unfold doMountRootLive
  dsimp only
  rw [hdisks, search_eq tryDrive_eq]
  simp

/-! ### Which disk it is -/

theorem first_with_both {α : Type} {p q : α → Bool} {xs : List α}
    (h : ∀ x ∈ xs.find? p, q x) :
    (xs.find? fun x => p x && q x) = xs.find? p ∧ upTo (fun x => p x && q x) xs = upTo p xs := by
  unfold upTo
  induction xs with
  | nil => exact ⟨rfl, rfl⟩
  | cons x xs ih =>
    by_cases hx : p x = true
    · rw [List.find?_cons_of_pos hx] at h
      have hq : q x = true := h x rfl
      simp [hx, hq]
    · rw [List.find?_cons_of_neg hx] at h
      obtain ⟨hfind, hupto⟩ := ih h
      simp only [Bool.not_eq_true] at hx
      simp [hx, hfind, List.append_cancel_right_eq] at hupto ⊢
      exact hupto

/-- The mounts are the first CD and the first marked partition of a removable disk exactly
when the first marked device that is listed for a removable disk lies on one. -/
theorem mounts_exact_iff (h : Machine) :
    IsExact h (doMountRootLive h) ↔
      ∀ d ∈ (scanOrder h).find? (isRelease h), onRemovable h d := by
  rw [doMountRootLive_eq]
  constructor
  · rintro ⟨hstack, -⟩ d hd
    have hsame := List.append_cancel_right hstack
    rw [Option.mem_def.mp hd] at hsame
    have hfound := Option.toList_eq_singleton_iff.mp hsame.symm
    have hboth := List.find?_some hfound
    rw [Bool.and_eq_true] at hboth
    exact hboth.2
  · intro hd
    obtain ⟨hfind, hupto⟩ := first_with_both hd
    exact ⟨by rw [hfind], by rw [hupto]⟩

/-- The disks `sda` to `sdz` and `sdaa`, of which only the first one is removable; the last
one has a marked partition, which the pattern for the first one lists. -/
def fullMachine : Machine where
  drives := []
  disks := ⟨"sda".toList, true⟩ :: ⟨"sdaa".toList, false⟩ ::
    "bcdefghijklmnopqrstuvwxyz".toList.map fun c => ⟨['s', 'd', c], false⟩
  dev := ["sda".toList, "sda1".toList, "sdaa".toList, "sdaa1".toList]
  blkid d := decide (d ∈ ["sda1".toList, "sdaa1".toList])
  mounts _ := true
  label d := if d = "sdaa1".toList then some "HaoOS's RELEASE 1.0\n".toList else none

theorem not_mounts_exact_full : ¬ IsExact fullMachine (doMountRootLive fullMachine) := by
  have hmounted : (doMountRootLive fullMachine).stack = ["sdaa1".toList] := by decide +kernel
  have hnone : ((scanOrder fullMachine).find? fun d =>
      isRelease fullMachine d && onRemovable fullMachine d) = none := by decide +kernel
  intro h
  have hstack := h.stack
  rw [hmounted, hnone] at hstack
  cases hstack

end HaoosLfs.Live
