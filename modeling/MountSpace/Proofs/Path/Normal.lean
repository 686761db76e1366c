import MountSpace.Path.Parse
import Mathlib.Data.List.DropRight

/-!
# The normal form of paths

Every path that is read is in normal form: double dots stand only in front of a relative path, all
other names are ordinary, and only a path from a root names a store.  On ordinary names the stack
of `Path.collapse` is a plain list, so moving down, across and up become operations on lists.

## Main definitions

* `Ordinary` — a name that leads one step down.
* `Descends` — the same, whatever characters it has.
* `Path.Normal` — the normal form.
* `Path.leadingDots`, `Path.afterDots` — a relative path cut into its double dots and the rest.
-/

namespace MountSpace

/-- A name that leads one step down: neither empty nor made of dots, and without a slash. -/
def Ordinary (name : String) : Prop :=
  name ≠ "" ∧ name ≠ "." ∧ name ≠ ".." ∧ '/' ∉ name.toList

instance (name : String) : Decidable (Ordinary name) := by
  unfold Ordinary; infer_instance

/-- A name that leads one step down wherever it stands: neither empty nor made of dots. -/
def Descends (name : String) : Prop := name ≠ "" ∧ name ≠ "." ∧ name ≠ ".."

instance (name : String) : Decidable (Descends name) :=
  inferInstanceAs (Decidable (_ ∧ _ ∧ _))

theorem Ordinary.descends {name : String} (h : Ordinary name) : Descends name :=
  ⟨h.1, h.2.1, h.2.2.1⟩

namespace Path

/-! ## Ordinary names on the stack -/

theorem push_of_descends {name : String} (h : Descends name) (absolute : Bool)
    (stack : List String) : push absolute stack name = name :: stack := by
  simp [push, h.1, h.2.1, h.2.2]

theorem push_ordinary {name : String} (h : Ordinary name) (absolute : Bool)
    (stack : List String) : push absolute stack name = name :: stack :=
  push_of_descends h.descends absolute stack

theorem push_of_skipped {name : String} (h : name = "" ∨ name = ".") (absolute : Bool)
    (stack : List String) : push absolute stack name = stack := by
  simp [push, h]

theorem foldl_push_of_descends {names : List String} (h : ∀ n ∈ names, Descends n)
    (absolute : Bool) (stack : List String) :
    names.foldl (push absolute) stack = names.reverse ++ stack := by
  induction names generalizing stack with
  | nil => rfl
  | cons name names ih =>
    rw [List.foldl_cons, push_of_descends (h name (by simp)),
      ih (fun n hn => h n (by simp [hn]))]
    simp

theorem foldl_push_ordinary {names : List String} (h : ∀ n ∈ names, Ordinary n)
    (absolute : Bool) (stack : List String) :
    names.foldl (push absolute) stack = names.reverse ++ stack :=
  foldl_push_of_descends (fun n hn => (h n hn).descends) absolute stack

/-- Ordinary names collapse to themselves. -/
theorem collapse_ordinary {names : List String} (h : ∀ n ∈ names, Ordinary n)
    (absolute : Bool) : collapse absolute names = names := by
  simp [collapse, foldl_push_ordinary h]

/-- From a root, a double dot takes one name off a stack of ordinary names. -/
theorem push_dots {stack : List String} (h : ∀ n ∈ stack, Ordinary n) :
    push true stack ".." = stack.drop 1 := by
  cases stack with
  | nil => rfl
  | cons top rest => simp [push, (h top (by simp)).2.2.1]

theorem foldl_push_dots {stack : List String} (h : ∀ n ∈ stack, Ordinary n) (ups : ℕ) :
    (List.replicate ups "..").foldl (push true) stack = stack.drop ups := by
  induction ups generalizing stack with
  | zero => rfl
  | succ ups ih =>
    rw [List.replicate_succ, List.foldl_cons, push_dots h,
      ih (fun n hn => h n (List.mem_of_mem_drop hn)), List.drop_drop, Nat.add_comm]

/-- From a root, double dots take names away from the end and ordinary names are added there. -/
theorem collapse_dots {front names : List String} (hf : ∀ n ∈ front, Ordinary n)
    (hn : ∀ n ∈ names, Ordinary n) (ups : ℕ) :
    collapse true (front ++ (List.replicate ups ".." ++ names)) = front.rdrop ups ++ names := by
  have hr : ∀ n ∈ front.reverse, Ordinary n := by simpa using hf
  rw [collapse, List.foldl_append, List.foldl_append, foldl_push_ordinary hf, List.append_nil,
    foldl_push_dots hr, foldl_push_ordinary hn, List.reverse_append, List.reverse_reverse,
    List.rdrop_eq_reverse_drop_reverse]

/-! ## The normal form -/

/-- The normal form of a path: double dots stand only in front of a relative path, all other names
are ordinary, only a path from a root names a store, and a relative path has a name. -/
structure Normal (p : Path) : Prop where
  /-- The names: double dots and, after them, ordinary names. -/
  names : ∃ ups names, p.segments = List.replicate ups ".." ++ names ∧
    (∀ n ∈ names, Ordinary n) ∧ (p.absolute = true → ups = 0)
  /-- A path that names a store starts at its root. -/
  absolute_of_stated : p.location.isStated = true → p.absolute = true
  /-- A relative path has a name. -/
  ne_nil : p.absolute = false → p.segments ≠ []

theorem Normal.ordinary {p : Path} (h : p.Normal) (ha : p.absolute = true) :
    ∀ n ∈ p.segments, Ordinary n := by
  obtain ⟨ups, names, hs, hn, hu⟩ := h.names
  rw [hs, hu ha]
  simpa using hn

/-- A path from a root with ordinary names is in normal form. -/
theorem normal_of_ordinary {p : Path} (ha : p.absolute = true)
    (h : ∀ n ∈ p.segments, Ordinary n) : p.Normal where
  names := ⟨0, p.segments, rfl, h, fun _ => rfl⟩
  absolute_of_stated _ := ha
  ne_nil hf := by rw [ha] at hf; cases hf

theorem Normal.location_eq {p : Path} (h : p.Normal) (hr : p.absolute = false) :
    p.location.isStated = false := by
  cases hl : p.location.isStated with
  | false => rfl
  | true => rw [h.absolute_of_stated hl] at hr; cases hr

/-- How many double dots stand in front. -/
def leadingDots (p : Path) : ℕ := (p.segments.takeWhile (· == "..")).length

/-- The names after the double dots in front. -/
def afterDots (p : Path) : List String := p.segments.dropWhile (· == "..")

theorem segments_eq_dots (p : Path) :
    p.segments = List.replicate p.leadingDots ".." ++ p.afterDots := by
  have hdots : p.segments.takeWhile (· == "..") = List.replicate p.leadingDots ".." := by
    refine List.eq_replicate_iff.mpr ⟨rfl, fun n hn => ?_⟩
    simpa using List.mem_takeWhile_imp hn
  rw [← hdots, afterDots, List.takeWhile_append_dropWhile]

theorem Normal.afterDots_ordinary {p : Path} (h : p.Normal) :
    ∀ n ∈ p.afterDots, Ordinary n := by
  obtain ⟨ups, names, hs, hn, -⟩ := h.names
  have hrest : p.afterDots = names := by
    rw [afterDots, hs, List.dropWhile_append_of_pos (by simp)]
    cases names with
    | nil => rfl
    | cons name names => simp [(hn name (by simp)).2.2.1]
  rwa [hrest]

end Path

end MountSpace
