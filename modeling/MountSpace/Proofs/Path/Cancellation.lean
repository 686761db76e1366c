import MountSpace.Proofs.Path.Lasting
import Mathlib.Logic.Relation

/-!
# Names that cancel

What `Path.collapse` leaves of a list of names does not depend on its stack.  It is what remains
when empty names and dots are dropped, a name is cancelled against a double dot right behind it,
and from a root a double dot in front is dropped, in any order and as long as any of it is
possible.

## Main definitions

* `Path.Cancels` — one of these steps.
* `Path.Cancelled` — nothing is left to do.

Main statement: `Path.collapse_eq_iff`.
-/

namespace MountSpace

namespace Path

open Relation

/-- One step of cancelling names. -/
inductive Cancels (absolute : Bool) : List String → List String → Prop
  /-- An empty name or a dot is dropped. -/
  | skip (front : List String) {name : String} (rest : List String) (h : name = "" ∨ name = ".") :
    Cancels absolute (front ++ name :: rest) (front ++ rest)
  /-- A name goes with the double dot right behind it. -/
  | up (front : List String) {name : String} (rest : List String) (hne : name ≠ "")
    (hdot : name ≠ ".") (hdots : name ≠ "..") :
    Cancels absolute (front ++ name :: ".." :: rest) (front ++ rest)
  /-- From a root, a double dot in front leads nowhere. -/
  | top (rest : List String) (h : absolute = true) : Cancels absolute (".." :: rest) rest

/-- No step is left. -/
def Cancelled (absolute : Bool) (names : List String) : Prop :=
  ∀ next, ¬Cancels absolute names next

variable {absolute : Bool} {names next out stack : List String} {name : String}

/-! ## A step changes nothing that the stack sees -/

theorem Cancels.collapse_eq (h : Cancels absolute names next) :
    collapse absolute next = collapse absolute names := by
  cases h with
  | skip front rest h =>
    rw [collapse, collapse, List.foldl_append, List.foldl_append, List.foldl_cons,
      push_of_skipped h]
  | up front rest hne hdot hdots =>
    rename_i name
    have hpush := push_of_descends ⟨hne, hdot, hdots⟩ absolute
    have hpop : ∀ stack, push absolute (name :: stack) ".." = stack := by
      intro stack
      simp [push, hdots]
    rw [collapse, collapse, List.foldl_append, List.foldl_append, List.foldl_cons,
      List.foldl_cons, hpush, hpop]
  | top rest h =>
    have hpush : push absolute [] ".." = [] := by simp [push, h]
    rw [collapse, collapse, List.foldl_cons, hpush]

theorem collapse_eq_of_reached (h : ReflTransGen (Cancels absolute) names out) :
    collapse absolute out = collapse absolute names := by
  induction h with
  | refl => rfl
  | tail _ hstep ih => rw [hstep.collapse_eq, ih]

theorem Cancels.length_lt (h : Cancels absolute names next) : next.length < names.length := by
  cases h with
  | skip | up =>
    simp only [List.length_append, List.length_cons]
    omega
  | top => simp

/-! ## The stack works in steps -/

/-- What the stack may hold: no empty name and no dot, and from a root no double dot. -/
def Stacked (absolute : Bool) (stack : List String) : Prop :=
  ∀ n ∈ stack, n ≠ "" ∧ n ≠ "." ∧ (absolute = true → n ≠ "..")

theorem Stacked.cons (h : Stacked absolute stack) (hne : name ≠ "") (hdot : name ≠ ".")
    (hdots : absolute = true → name ≠ "..") : Stacked absolute (name :: stack) :=
  List.forall_mem_cons.mpr ⟨⟨hne, hdot, hdots⟩, h⟩

/-- A push is one step on the names in front and the name behind them, or none. -/
theorem Stacked.push (h : Stacked absolute stack) (name : String) (rest : List String) :
    Stacked absolute (push absolute stack name) ∧
      ReflTransGen (Cancels absolute) (stack.reverse ++ name :: rest)
        ((Path.push absolute stack name).reverse ++ rest) := by
  by_cases hskip : name = "" ∨ name = "."
  · rw [push_of_skipped hskip]
    exact ⟨h, .single (.skip _ _ hskip)⟩
  obtain ⟨hne, hdot⟩ := not_or.mp hskip
  by_cases hdots : name = ".."
  swap
  · rw [push_of_descends ⟨hne, hdot, hdots⟩]
    exact ⟨h.cons hne hdot fun _ => hdots, by simpa using ReflTransGen.refl⟩
  subst hdots
  cases stack with
  | nil =>
    cases absolute with
    | true => exact ⟨h, .single (.top _ rfl)⟩
    | false => exact ⟨h.cons hne hdot fun hf => absurd hf Bool.false_ne_true, .refl⟩
  | cons last stack =>
    obtain ⟨hlast, hstack⟩ := List.forall_mem_cons.mp h
    by_cases hup : last = ".."
    · cases absolute with
      | true => exact absurd hup (hlast.2.2 rfl)
      | false =>
        have hpush : Path.push false (last :: stack) ".." = ".." :: last :: stack := by
          simp [Path.push, hup]
        rw [hpush]
        exact ⟨h.cons hne hdot fun hf => absurd hf Bool.false_ne_true,
          by simpa using ReflTransGen.refl⟩
    · have hpush : Path.push absolute (last :: stack) ".." = stack := by simp [Path.push, hup]
      rw [hpush, List.reverse_cons, List.append_assoc]
      exact ⟨hstack, .single (.up _ _ hlast.1 hlast.2.1 hup)⟩

theorem reached_foldl_push (h : Stacked absolute stack) (names : List String) :
    ReflTransGen (Cancels absolute) (stack.reverse ++ names)
      (names.foldl (push absolute) stack).reverse := by
  induction names generalizing stack with
  | nil => simpa using ReflTransGen.refl
  | cons name names ih =>
    obtain ⟨hpushed, hsteps⟩ := h.push name names
    exact hsteps.trans (ih hpushed)

theorem reached_collapse (absolute : Bool) (names : List String) :
    ReflTransGen (Cancels absolute) names (collapse absolute names) := by
  have hempty : Stacked absolute [] := fun _ hn => (nomatch hn)
  exact reached_foldl_push hempty names

/-- A step from collapsed names would leave fewer names than they collapse to. -/
theorem cancelled_collapse (absolute : Bool) (names : List String) :
    Cancelled absolute (collapse absolute names) := by
  intro next hstep
  have hsame : collapse absolute next = collapse absolute names :=
    hstep.collapse_eq.trans (collapse_eq_of_reached (reached_collapse absolute names))
  have hle : (collapse absolute next).length ≤ next.length := by
    rcases length_foldl_push absolute next [] with heq | hless
    · simp [collapse, heq]
    · rw [collapse, List.length_reverse]
      simpa using hless.le
  have hlt := hstep.length_lt
  rw [hsame] at hle
  omega

/-- **Names collapse to what is reached by cancelling as long as possible**, in whatever order. -/
theorem collapse_eq_iff : collapse absolute names = out ↔
    ReflTransGen (Cancels absolute) names out ∧ Cancelled absolute out := by
  constructor
  · rintro rfl
    exact ⟨reached_collapse _ _, cancelled_collapse _ _⟩
  · rintro ⟨hreached, hdone⟩
    rw [← collapse_eq_of_reached hreached]
    rcases (reached_collapse absolute out).cases_head with heq | ⟨next, hstep, -⟩
    · exact heq.symm
    · exact absurd hstep (hdone next)

end Path

end MountSpace
