import MountSpace.Proofs.Path.Cancellation

/-!
# Joining in any grouping

A path is put together from several: a working directory, the directory of a link, its target, the
names that are still to go.  It does not matter which of them are put together first.  What cancels
in a relative path by itself also cancels behind other names, and what cancels in front of a path
also does so with the path behind it.

Main statement: `Path.join_regroup`.
-/

namespace MountSpace

namespace Path

open Relation

variable {absolute : Bool} {names next : List String} {p q : Path}

/-! ## Steps among more names -/

/-- A step is one also with more names behind it. -/
theorem Cancels.append_right (h : Cancels absolute names next) (more : List String) :
    Cancels absolute (names ++ more) (next ++ more) := by
  cases h with
  | skip front rest h => simpa using Cancels.skip front (rest ++ more) h
  | up front rest hne hdot hdots => simpa using Cancels.up front (rest ++ more) hne hdot hdots
  | top _ h => exact .top (next ++ more) h

/-- A step in a relative path is one also behind the names of any other path.  From a root it need
not be, since a double dot that leads nowhere there takes away a name here. -/
theorem Cancels.append_left (h : Cancels false names next) (absolute : Bool)
    (before : List String) : Cancels absolute (before ++ names) (before ++ next) := by
  cases h with
  | skip front rest h => simpa using Cancels.skip (before ++ front) rest h
  | up front rest hne hdot hdots =>
    simpa using Cancels.up (before ++ front) rest hne hdot hdots
  | top _ h => cases h

/-- Names in front may be collapsed first. -/
theorem collapse_collapse_append (absolute : Bool) (xs ys : List String) :
    collapse absolute (collapse absolute xs ++ ys) = collapse absolute (xs ++ ys) := by
  have hsteps : ReflTransGen (Cancels absolute) (xs ++ ys) (collapse absolute xs ++ ys) :=
    (reached_collapse absolute xs).lift (· ++ ys) fun _ _ hstep => hstep.append_right ys
  exact collapse_eq_of_reached hsteps

/-- Names behind may be collapsed first, as those of a relative path. -/
theorem collapse_append_collapse (absolute : Bool) (xs ys : List String) :
    collapse absolute (xs ++ collapse false ys) = collapse absolute (xs ++ ys) := by
  have hsteps : ReflTransGen (Cancels absolute) (xs ++ ys) (xs ++ collapse false ys) :=
    (reached_collapse false ys).lift (xs ++ ·) fun _ _ hstep => hstep.append_left absolute xs
  exact collapse_eq_of_reached hsteps

/-! ## Going down and joining -/

/-- Going down twice is going down once. -/
theorem child_child (p : Path) (xs ys : List String) :
    (p.child xs).child ys = p.child (xs ++ ys) := by
  simp only [child, collapse_collapse_append, List.append_assoc]

theorem join_of_own (h : (q.absolute || q.location.isStated) = true) : p.join q = q := if_pos h

theorem join_of_relative (h : (q.absolute || q.location.isStated) = false) :
    p.join q = p.child q.segments := by
  rw [join, if_neg (by simp [h])]

/-- Going down from where a path leads is joining the path that goes down further. -/
theorem child_join (p q : Path) (names : List String) :
    (p.join q).child names = p.join (q.child names) := by
  cases h : q.absolute || q.location.isStated with
  | true => rw [join_of_own h, join_of_own (q := q.child names) h]
  | false =>
    have hrelative : q.absolute = false := (Bool.or_eq_false_iff.mp h).1
    rw [join_of_relative h, join_of_relative (q := q.child names) h, child_child]
    simp only [child, hrelative, collapse_append_collapse]

theorem join_assoc (p q r : Path) : (p.join q).join r = p.join (q.join r) := by
  cases h : r.absolute || r.location.isStated with
  | true => rw [join_of_own h, join_of_own h, join_of_own h]
  | false => rw [join_of_relative h, join_of_relative h, child_join]

/-- **Joining does not depend on the grouping**, of paths of any kind and names of any form, and
neither does going down.  Of two relative paths behind a third, there remains what is left of all
names when they are cancelled as long as possible, in any order. -/
theorem join_regroup (p : Path) :
    (∀ q r, (p.join q).join r = p.join (q.join r)) ∧
    (∀ xs ys, (p.child xs).child ys = p.child (xs ++ ys)) ∧
    ∀ xs ys out, (p.join ⟨{}, xs, false⟩).join ⟨{}, ys, false⟩ = ⟨p.location, out, p.absolute⟩ ↔
      ReflTransGen (Cancels p.absolute) (p.segments ++ (xs ++ ys)) out ∧
        Cancelled p.absolute out := by
  refine ⟨join_assoc p, child_child p, fun xs ys out => ?_⟩
  have hjoined : (p.join ⟨{}, xs, false⟩).join ⟨{}, ys, false⟩ = p.child (xs ++ ys) := by
    rw [join_of_relative rfl, join_of_relative rfl, child_child]
  rw [hjoined, ← collapse_eq_iff, child, Path.mk.injEq]
  exact ⟨fun h => h.2.1, fun h => ⟨rfl, h, rfl⟩⟩

end Path

end MountSpace
