import MountSpace.Proofs.Session.CatalogueMount
import MountSpace.Proofs.Session.Composition

/-!
# Work on two stores at once

Two pieces of work, each on a mount of its own, come to the same when they start from one catalogue
and end in one catalogue, with related values or failures of one kind.  An excuse may be given: if
it applies to the site in which the first ends, nothing is said.

## Main definitions

* `Work.Joint` — two pieces of work that come to the same.

Main statements: `Catalogue.Lists.same`, `Work.Joint.bind`, `Work.joint_of_yields`.
-/

namespace MountSpace

open MountSpace.Path

/-! ## Outcomes -/

/-- Outcomes that a map makes equal are the same under it. -/
theorem SameOutcome.of_map_eq {α β γ : Type} {f : α → γ} {g : β → γ} {r : Except Error α}
    {r' : Except Error β} (h : f <$> r = g <$> r') :
    SameOutcome (fun a b => f a = g b) r r' := by
  cases r with
  | error e =>
    cases r' with
    | error e' =>
      cases h
      exact .error rfl
    | ok b => cases h
  | ok a =>
    cases r' with
    | error e' => cases h
    | ok b => exact .ok (Except.ok.inj h)

/-- Lists that are gone through side by side come to the same, item by item. -/
theorem SameOutcome.mapM {α β γ δ : Type} {R : α → β → Prop} {S : γ → δ → Prop}
    {f : α → Except Error γ} {g : β → Except Error δ} {xs : List α} {ys : List β}
    (h : List.Forall₂ R xs ys) (hf : ∀ a b, R a b → SameOutcome S (f a) (g b)) :
    SameOutcome (List.Forall₂ S) (xs.mapM f) (ys.mapM g) := by
  induction h with
  | nil => exact .ok .nil
  | cons hab _ ih =>
    rw [List.mapM_cons, List.mapM_cons]
    exact (hf _ _ hab).bind fun _ _ hS => ih.bind fun _ _ hrest => .ok (.cons hS hrest)

/-- **A directory is listed in one way only**, times aside. -/
theorem Catalogue.Lists.same {c : Catalogue} {names : List String}
    {r r' : Except Error (List Status)} (h : c.Lists names r) (h' : c.Lists names r') :
    SameOutcome (fun l l' => l.map Status.untimed = l'.map Status.untimed) r r' := by
  cases h with
  | error kind bad =>
    cases h' with
    | error kind' _ => exact .error (kind.trans kind'.symm)
    | ok _ _ _ all =>
      obtain ⟨name, node, e, hnode, htold⟩ := bad
      obtain ⟨st, hst⟩ := all name node hnode
      rw [htold] at hst
      cases hst
  | ok sorted nodup mem all =>
    cases h' with
    | error _ bad =>
      obtain ⟨name, node, e, hnode, htold⟩ := bad
      obtain ⟨st, hst⟩ := all name node hnode
      rw [htold] at hst
      cases hst
    | ok sorted' nodup' mem' _ =>
      refine .ok ?_
      have hperm := (List.perm_ext_iff_of_nodup nodup nodup').mpr fun st =>
        (mem st).trans (mem' st).symm
      have hsorted : ∀ {l : List Status}, (l.Pairwise fun a b => a.path.name ≤ b.path.name) →
          (l.map Status.untimed).Pairwise fun a b => a.path.name ≤ b.path.name :=
        fun h => h.map _ fun _ _ hle => hle
      refine List.Perm.eq_of_pairwise ?_ (hsorted sorted) (hsorted sorted') hperm
      -- Entries of one name are one entry.
      intro a b ha hb hab hba
      obtain ⟨name, node, hnode, htold⟩ := (mem a).mp ha
      obtain ⟨name', node', hnode', htold'⟩ := (mem' b).mp hb
      have hname := String.le_antisymm hab hba
      rw [Node.path_of_told htold, Node.path_of_told htold', name_child, name_child] at hname
      subst hname
      obtain rfl : node = node' := Option.some.inj (hnode.symm.trans hnode')
      exact Except.ok.inj (htold.symm.trans htold')

/-! ## Work -/

namespace Work

variable {α β γ δ : Type}

/-- From one catalogue, the two come to the same and end in one catalogue, unless the excuse
applies to the site in which the first ends. -/
def Joint (mx my : Mount) (E : Site → Prop) (c : Catalogue) (R : α → β → Catalogue → Prop)
    (v : Work α) (w : Work β) : Prop :=
  ∀ x y, mx.Shows x c → my.Shows y c → E (v.eval x).2 ∨ ∃ c', mx.Shows (v.eval x).2 c' ∧
    my.Shows (w.eval y).2 c' ∧ SameOutcome (R · · c') (v.eval x).1 (w.eval y).1

variable {mx my : Mount} {E : Site → Prop} {c c' : Catalogue} {R : α → β → Catalogue → Prop}
variable {S : γ → δ → Catalogue → Prop} {v : Work α} {w : Work β} {f : α → Work γ} {g : β → Work δ}

theorem joint_ofExcept {r : Except Error α} {r' : Except Error β}
    (h : SameOutcome (R · · c) r r') : Joint mx my E c R (.ofExcept r) (.ofExcept r') :=
  fun _ _ hx hy => .inr ⟨c, hx, hy, h⟩

theorem joint_pure {a : α} {b : β} (h : R a b c) : Joint mx my E c R (pure a) (pure b) :=
  fun _ _ hx hy => .inr ⟨c, hx, hy, .ok h⟩

theorem joint_throw {e e' : Error} (h : e.kind = e'.kind) :
    Joint mx my E c R (throw e) (throw e') :=
  fun _ _ hx hy => .inr ⟨c, hx, hy, .error h⟩

theorem joint_report (e e' : Event) {R : Unit → Unit → Catalogue → Prop} (h : R () () c) :
    Joint mx my E c R (report e) (report e') :=
  fun _ _ hx hy => .inr ⟨c, hx.told [e], hy.told [e'], .ok h⟩

/-- Both succeed. -/
theorem joint_of_yields {a : α} {b : β} (hx : ∀ x, mx.Shows x c → mx.Yields x v a c')
    (hy : ∀ y, my.Shows y c → my.Yields y w b c') (h : R a b c') :
    Joint mx my E c R v w := by
  intro x y hshows hshows'
  obtain ⟨x', hv, hx'⟩ := hx x hshows
  obtain ⟨y', hw, hy'⟩ := hy y hshows'
  rw [hv, hw]
  exact .inr ⟨c', hx', hy', .ok h⟩

namespace Joint

/-- One after the other: what comes second starts from whatever catalogue the first leaves. -/
theorem bind (h : Joint mx my (fun _ => False) c R v w)
    (hf : ∀ a b c', R a b c' → Joint mx my E c' S (f a) (g b)) :
    Joint mx my E c S (v >>= f) (w >>= g) := by
  intro x y hx hy
  rw [Action.eval_bind, Action.eval_bind]
  rcases h x y hx hy with hfalse | ⟨c', hx', hy', hout⟩
  · exact hfalse.elim
  rcases hv : v.eval x with ⟨r, x'⟩
  rcases hw : w.eval y with ⟨r', y'⟩
  rw [hv] at hx' hout
  rw [hw] at hy' hout
  dsimp only at hx' hy' hout
  cases hout with
  | ok hR => exact hf _ _ c' hR x' y' hx' hy'
  | error hkind => exact .inr ⟨c', hx', hy', .error hkind⟩

theorem mono {R' : α → β → Catalogue → Prop} (h : Joint mx my E c R v w)
    (hR : ∀ a b c', R a b c' → R' a b c') : Joint mx my E c R' v w := by
  intro x y hx hy
  refine (h x y hx hy).imp_right ?_
  rintro ⟨c', hx', hy', hout⟩
  exact ⟨c', hx', hy', hout.mono fun a b => hR a b c'⟩

/-- Work is judged by what it comes to. -/
theorem of_eval {v' : Work α} {w' : Work β} (h : Joint mx my E c R v w)
    (hv : ∀ x, v'.eval x = v.eval x) (hw : ∀ y, w'.eval y = w.eval y) :
    Joint mx my E c R v' w' := fun x y hx hy => by
  rw [hv, hw]
  exact h x y hx hy

theorem map (h : Joint mx my E c R v w) {i : α → γ} {j : β → δ}
    (hij : ∀ a b c', R a b c' → S (i a) (j b) c') : Joint mx my E c S (i <$> v) (j <$> w) := by
  intro x y hx hy
  rw [Action.eval_map, Action.eval_map]
  refine (h x y hx hy).imp_right ?_
  rintro ⟨c', hx', hy', hout⟩
  exact ⟨c', hx', hy', hout.map fun a b => hij a b c'⟩

theorem attempt (h : Joint mx my (fun _ => False) c R v w) :
    Joint mx my E c (fun r r' c' => SameOutcome (R · · c') r r') (Action.attempt v)
      (Action.attempt w) := by
  intro x y hx hy
  rcases h x y hx hy with hfalse | ⟨c', hx', hy', hout⟩
  · exact hfalse.elim
  · exact .inr ⟨c', hx', hy', .ok hout⟩

/-- The same is asked on both sides. -/
theorem ite {p q : Prop} [Decidable p] [Decidable q] {v' : Work α} {w' : Work β} (hpq : p ↔ q)
    (h : p → Joint mx my E c R v w) (h' : ¬p → Joint mx my E c R v' w') :
    Joint mx my E c R (if p then v else v') (if q then w else w') := by
  by_cases hp : p
  · rw [if_pos hp, if_pos (hpq.mp hp)]
    exact h hp
  · rw [if_neg hp, if_neg (mt hpq.mpr hp)]
    exact h' hp

/-- The same check fails on both sides, or lets the rest run on both. -/
theorem check {p q : Prop} [Decidable p] [Decidable q] {e e' : Error} {k : Unit → Work α}
    {l : Unit → Work β} (hpq : p ↔ q) (hkind : e.kind = e'.kind)
    (h : ¬p → Joint mx my E c R (k ()) (l ())) :
    Joint mx my E c R (if p then throw e >>= k else k ()) (if q then throw e' >>= l else l ()) :=
  ite hpq (fun _ _ _ hx hy => .inr ⟨c, hx, hy, .error hkind⟩) h

end Joint

end Work

end MountSpace
