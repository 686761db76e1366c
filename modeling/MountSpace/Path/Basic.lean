import MountSpace.Location

/-!
# Paths

An address in a space of mounted stores: a location, the names on the way, and whether the way
starts at the root.

Names are collapsed on a stack: an empty name or a dot adds nothing, a double dot takes away the
name before it.  Above the root there is nothing to take away; a relative path keeps the double
dots that lead out of it, in front.

## Main definitions

* `Path` — location, names and absoluteness.
* `Path.push`, `Path.collapse` — one name, or a list of names, onto a stack of names.
* `Path.child`, `Path.join`, `Path.parent?` — moving down, across and up.
* `Path.localText`, `Path.text` — the path without and with its location.
* `Path.isAncestorOf` — strictly above.
-/

namespace MountSpace

/-- An address: a location, the names on the way down, and whether the way starts at the root. -/
structure Path where
  /-- The store, as far as the address names it. -/
  location : Location := {}
  /-- The names on the way, outermost first. -/
  segments : List String := []
  /-- Whether the way starts at the root of the store. -/
  absolute : Bool := true
  deriving DecidableEq, Repr, Inhabited

namespace Path

/-- The root of a store. -/
def root (l : Location) : Path := { location := l }

/-- Whether the path is a root. -/
def isRoot (p : Path) : Bool := p.absolute && p.segments.isEmpty

/-- The last name, or nothing. -/
def name (p : Path) : String := p.segments.getLast?.getD ""

/-- The path without its location: the names between slashes, with a slash in front when the way
starts at the root. -/
def localText (p : Path) : String :=
  (if p.absolute then "/" else "") ++ "/".intercalate p.segments

/-- The whole address. -/
def text (p : Path) : String := p.location.text ++ p.localText

instance : ToString Path := ⟨text⟩

/-- The same way in another store. -/
def withLocation (p : Path) (l : Location) : Path := { p with location := l }

/-- One name onto a stack of names, the innermost name on top. -/
def push (absolute : Bool) (stack : List String) (name : String) : List String :=
  if name = "" ∨ name = "." then stack
  else if name = ".." then
    match stack with
    | top :: rest => if top ≠ ".." then rest else if absolute then stack else name :: stack
    | [] => if absolute then [] else [name]
  else name :: stack

/-- A list of names with empty names and dots dropped and double dots worked off. -/
def collapse (absolute : Bool) (names : List String) : List String :=
  (names.foldl (push absolute) []).reverse

/-- The path reached from `p` by going down `names`. -/
def child (p : Path) (names : List String) : Path :=
  { p with segments := collapse p.absolute (p.segments ++ names) }

/-- The directory that holds the path.  A root has none, and neither has a relative path of one
name. -/
def parent? (p : Path) : Option Path :=
  if p.segments.isEmpty || (!p.absolute && p.segments.length == 1) then none
  else some { p with segments := p.segments.dropLast }

/-- The path `q` as seen from `p`: an absolute path or one with a location stands for itself, a
relative one is appended. -/
def join (p q : Path) : Path :=
  if q.absolute || q.location.isStated then q else p.child q.segments

/-- Whether two paths lie in the same store, as far as they say. -/
def sameLocation (p q : Path) : Bool := p.location == q.location

/-- Whether `q` lies strictly below `p`: the same location, and more names after those of `p`. -/
def isAncestorOf (p q : Path) : Bool :=
  p.sameLocation q && p.segments.length < q.segments.length && p.segments.isPrefixOf q.segments

/-! ## Small laws -/

/-- Nothing collapses to nothing. -/
@[simp] theorem collapse_nil (absolute : Bool) : collapse absolute [] = [] := rfl

/-- Going down keeps the location. -/
@[simp] theorem child_location (p : Path) (names : List String) :
    (p.child names).location = p.location := rfl

/-- Going down keeps the absoluteness. -/
@[simp] theorem child_absolute (p : Path) (names : List String) :
    (p.child names).absolute = p.absolute := rfl

/-- Two lists of names collapse one after the other. -/
theorem collapse_append (absolute : Bool) (xs ys : List String) :
    collapse absolute (xs ++ ys) =
      (ys.foldl (push absolute) (collapse absolute xs).reverse).reverse := by
  simp [collapse, List.foldl_append]

/-- The root of a store is a root. -/
@[simp] theorem isRoot_root (l : Location) : (root l).isRoot = true := rfl

/-- The root of a store is written as its location and a slash. -/
@[simp] theorem text_root (l : Location) : (root l).text = l.text ++ "/" := rfl

/-- No path is above itself. -/
@[simp] theorem isAncestorOf_self (p : Path) : p.isAncestorOf p = false := by
  simp [isAncestorOf]

/-- A path above another has its location and its first names, but not all of them. -/
theorem isAncestorOf_iff {p q : Path} : p.isAncestorOf q = true ↔
    p.location = q.location ∧ ∃ names, names ≠ [] ∧ q.segments = p.segments ++ names := by
  simp only [isAncestorOf, sameLocation, Bool.and_eq_true, beq_iff_eq, decide_eq_true_eq,
    List.isPrefixOf_iff_prefix, and_assoc, and_congr_right_iff]
  intro _
  constructor
  · rintro ⟨hlt, names, heq⟩
    refine ⟨names, ?_, heq.symm⟩
    rintro rfl
    rw [← heq, List.append_nil] at hlt
    exact Nat.lt_irrefl _ hlt
  · rintro ⟨names, hne, heq⟩
    have hpos := List.length_pos_iff.mpr hne
    rw [heq, List.length_append]
    exact ⟨by omega, List.prefix_append _ _⟩

end Path

end MountSpace
