import HaoosLfs.Lib.Forest
import HaoosLfs.Lib.Text

/-!
# XML documents for the stylesheets

A document is an ordered forest of items; an element is an item with the forest
of its children. The location steps are the ones that `lfs.xsl` and `blfs.xsl`
use.
-/

namespace HaoosLfs.Book

inductive Item where
  | element (name : String) (attrs : List (String × Text))
  | text (s : Text)
  | pi (target : String) (data : Text)
  | comment (s : Text)
  deriving DecidableEq

abbrev Xml := Forest Item

abbrev Node := Item × Xml

def Item.isElement (name : String) : Item → Bool
  | .element n _ => n = name
  | _ => false

theorem Item.isElement_iff {i : Item} {name : String} :
    i.isElement name ↔ ∃ attrs, i = .element name attrs := by
  cases i with
  | element n attrs => simp [Item.isElement]
  | text s => simp [Item.isElement]
  | pi target data => simp [Item.isElement]
  | comment s => simp [Item.isElement]

def Item.attr (name : String) : Item → Option Text
  | .element _ as => as.lookup name
  | _ => none

/-- `child::name` -/
def child (name : String) (f : Xml) : List Node :=
  f.trees.filter fun n => n.1.isElement name

/-- `descendant::name`, in document order -/
def descendant (name : String) (f : Xml) : List Node :=
  f.subtrees.filter fun n => n.1.isElement name

theorem subtrees_of_child {name : String} {f : Xml} {n : Node} (h : n ∈ child name f) :
    n ∈ f.subtrees :=
  f.trees_subset (List.mem_of_mem_filter h)

theorem subtrees_of_descendant {name : String} {f : Xml} {n : Node} (h : n ∈ descendant name f) :
    n ∈ f.subtrees :=
  List.mem_of_mem_filter h

/-- `string()` of a node with these children -/
def stringValue (f : Xml) : Text :=
  f.preorder.flatMap fun i =>
    match i with
    | .text s => s
    | _ => []

/-- The string value of `processing-instruction(target)`: of the first child that
is one, or empty. -/
def piValue (target : String) (f : Xml) : Text :=
  (f.trees.findSome? fun n =>
    match n.1 with
    | .pi t data => if t = target then some data else none
    | _ => none).getD []

end HaoosLfs.Book
