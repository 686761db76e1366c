import MountSpace.Proofs.Path.Lasting

/-!
# Above and below

A path lies below another if it is reached from there by going down one or more names.  The test
for it looks at locations and names only.  It finds all that lies below, but it takes two more
kinds of paths for it: a path from the root and a relative one do not start at the same place,
whatever their names, and where a relative path leads up, a further double dot leads further up.
On all other paths in normal form, so on all that name a store, the test is right.

## Main definitions

* `Path.Below` — reached by going down.
* `Path.Misleads` — what is taken to lie below and does not.
* `Path.Ranked` — what the test is expected to say of two paths.

Main statement: `Path.ranked_iff`.
-/

namespace MountSpace

namespace Path

variable {p q r : Path} {front names : List String}

/-- `q` is reached from `p` by going down one or more names. -/
def Below (q p : Path) : Prop :=
  ∃ names, names ≠ [] ∧ (∀ n ∈ names, Descends n) ∧ q = p.child names

/-- The names of `q` are those of `p` and more, but they do not lead down from `p`. -/
inductive Misleads : Path → Path → Prop
  /-- One of the two starts at the root and the other does not. -/
  | elsewhere (absolute : Bool) (names : List String) {more : List String} (h : more ≠ []) :
    Misleads ⟨{}, names, absolute⟩ ⟨{}, names ++ more, !absolute⟩
  /-- The first only leads up, and the second leads further up. -/
  | upwards (ups : ℕ) {more : ℕ} (rest : List String) (h : more ≠ 0) :
    Misleads ⟨{}, List.replicate ups "..", false⟩
      ⟨{}, List.replicate ups ".." ++ (List.replicate more ".." ++ rest), false⟩

/-- Of two paths, the first is taken to be above the second exactly if the second lies below it,
and never if they differ in their location or in where they start. -/
structure Ranked (p q : Path) : Prop where
  above_iff : p.isAncestorOf q = true ↔ q.Below p
  location_eq : p.isAncestorOf q = true → p.location = q.location
  absolute_eq : p.isAncestorOf q = true → p.absolute = q.absolute

/-! ## Going down from a path in normal form -/

theorem Normal.collapse_segments (hp : p.Normal) : collapse p.absolute p.segments = p.segments := by
  cases ha : p.absolute with
  | true => exact collapse_ordinary (hp.ordinary ha) true
  | false => exact hp.collapse_eq

/-- Names that lead down are put behind those of the path. -/
theorem Normal.segments_child (hp : p.Normal) (h : ∀ n ∈ names, Descends n) :
    (p.child names).segments = p.segments ++ names := by
  change collapse p.absolute (p.segments ++ names) = _
  rw [collapse_append, hp.collapse_segments, foldl_push_of_descends h]
  simp

theorem Normal.below_iff (hp : p.Normal) : q.Below p ↔
    p.location = q.location ∧ p.absolute = q.absolute ∧
      ∃ names, names ≠ [] ∧ (∀ n ∈ names, Descends n) ∧ q.segments = p.segments ++ names := by
  constructor
  · rintro ⟨names, hne, hdown, rfl⟩
    exact ⟨rfl, rfl, names, hne, hdown, hp.segments_child hdown⟩
  · rintro ⟨hl, ha, names, hne, hdown, hs⟩
    refine ⟨names, hne, hdown, ?_⟩
    cases q with | mk l segments absolute =>
    dsimp only at hl ha hs
    rw [← hl, ← ha, hs, ← hp.segments_child hdown]
    rfl

/-- Behind some of the names of a path in normal form, the others lead down, or a double dot
follows on double dots. -/
theorem Normal.descends_or_upwards (hq : q.Normal) (hs : q.segments = front ++ names) :
    (∀ n ∈ names, Descends n) ∨ q.absolute = false ∧ ∃ ups more rest, more ≠ 0 ∧
      front = List.replicate ups ".." ∧ names = List.replicate more ".." ++ rest := by
  obtain ⟨ups, ordinary, hsegments, ho, hroot⟩ := hq.names
  rcases List.append_eq_append_iff.mp (hs.symm.trans hsegments) with
    ⟨mid, hups, rfl⟩ | ⟨mid, -, rfl⟩
  · obtain ⟨hlength, hfront, hmid⟩ := List.append_eq_replicate_iff.mp hups.symm
    by_cases hnil : mid = []
    · rw [hnil, List.nil_append]
      exact .inl fun n hn => (ho n hn).descends
    · have hpos := List.length_pos_iff.mpr hnil
      have hrelative : q.absolute = false := by
        by_contra ha
        have := hroot (by simpa using ha)
        omega
      exact .inr ⟨hrelative, _, mid.length, ordinary, by omega, hfront, by rw [← hmid]⟩
  · exact .inl fun n hn => (ho n (List.mem_append_right _ hn)).descends

/-! ## What the test finds -/

theorem isAncestorOf_trans (h : p.isAncestorOf q = true) (h' : q.isAncestorOf r = true) :
    p.isAncestorOf r = true := by
  obtain ⟨hl, names, hne, hs⟩ := isAncestorOf_iff.mp h
  obtain ⟨hl', more, -, hs'⟩ := isAncestorOf_iff.mp h'
  refine isAncestorOf_iff.mpr ⟨hl.trans hl', names ++ more, by simp [hne], ?_⟩
  rw [hs', hs, List.append_assoc]

theorem isAncestorOf_asymm (h : p.isAncestorOf q = true) : q.isAncestorOf p = false := by
  by_contra hback
  have hself := isAncestorOf_trans h (by simpa using hback)
  rw [isAncestorOf_self] at hself
  cases hself

theorem Normal.isAncestorOf_of_below (hp : p.Normal) (h : q.Below p) :
    p.isAncestorOf q = true := by
  obtain ⟨hl, -, names, hne, -, hs⟩ := hp.below_iff.mp h
  exact isAncestorOf_iff.mpr ⟨hl, names, hne, hs⟩

theorem Misleads.isAncestorOf (h : p.Misleads q) : p.isAncestorOf q = true := by
  cases h with
  | elsewhere absolute names h => exact isAncestorOf_iff.mpr ⟨rfl, _, h, rfl⟩
  | upwards ups rest h => exact isAncestorOf_iff.mpr ⟨rfl, _, by simp [h], rfl⟩

theorem Misleads.not_below (h : p.Misleads q) (hp : p.Normal) : ¬q.Below p := by
  intro hbelow
  obtain ⟨-, ha, names, -, hdown, hs⟩ := hp.below_iff.mp hbelow
  cases h with
  | elsewhere absolute names h => simp at ha
  | upwards ups rest h =>
    -- The first name behind those of `p` is a double dot.
    obtain rfl := List.append_cancel_left hs
    have hdots : ".." ∈ List.replicate _ ".." ++ rest :=
      List.mem_append_left _ (List.mem_replicate.mpr ⟨h, rfl⟩)
    exact (hdown _ hdots).2.2 rfl

/-- Of two paths with one location, neither names a store if one of them is relative. -/
theorem Normal.location_eq_empty (hp : p.Normal) (hq : q.Normal) (hl : p.location = q.location)
    (hr : p.absolute = false ∨ q.absolute = false) : p.location = {} ∧ q.location = {} := by
  rcases hr with hr | hr
  · have hempty := Location.isStated_eq_false_iff.mp (hp.location_eq hr)
    exact ⟨hempty, hl ▸ hempty⟩
  · have hempty := Location.isStated_eq_false_iff.mp (hq.location_eq hr)
    exact ⟨hl.trans hempty, hempty⟩

theorem Normal.below_or_misleads (hp : p.Normal) (hq : q.Normal) (h : p.isAncestorOf q = true) :
    q.Below p ∨ p.Misleads q := by
  obtain ⟨hl, names, hne, hs⟩ := isAncestorOf_iff.mp h
  by_cases ha : p.absolute = q.absolute
  · rcases hq.descends_or_upwards hs with hdown | ⟨hr, ups, more, rest, hmore, hfront, rfl⟩
    · exact .inl (hp.below_iff.mpr ⟨hl, ha, names, hne, hdown, hs⟩)
    · obtain ⟨hpl, hql⟩ := hp.location_eq_empty hq hl (.inr hr)
      refine .inr ?_
      cases p
      cases q
      dsimp only at *
      subst hpl hql hfront hs hr ha
      exact .upwards ups rest hmore
  · have hturned : q.absolute = !p.absolute := Bool.eq_not.mpr (Ne.symm ha)
    have hr : p.absolute = false ∨ q.absolute = false := by
      rw [hturned]
      cases p.absolute <;> simp
    obtain ⟨hpl, hql⟩ := hp.location_eq_empty hq hl hr
    refine .inr ?_
    cases p
    cases q
    dsimp only at *
    subst hpl hql hs hturned
    exact .elsewhere _ _ hne

/-- Paths that name a store do not mislead. -/
theorem Misleads.isStated_eq_false (h : p.Misleads q) : p.location.isStated = false := by
  cases h <;> rfl

/-- **Above means that the other lies below**, for two paths in normal form, exactly unless they
mislead, so always if they name a store.  In any case the test goes by a strict order. -/
theorem ranked_iff (hp : p.Normal) (hq : q.Normal) :
    (p.Ranked q ↔ ¬p.Misleads q) ∧ (p.location.isStated = true → p.Ranked q) ∧
      p.isAncestorOf p = false ∧ (p.isAncestorOf q = true → q.isAncestorOf p = false) ∧
      ∀ r, p.isAncestorOf q = true → q.isAncestorOf r = true → p.isAncestorOf r = true := by
  have hranked : ¬p.Misleads q → p.Ranked q := by
    intro hnot
    have hbelow : p.isAncestorOf q = true → q.Below p := fun h =>
      (hp.below_or_misleads hq h).resolve_right hnot
    exact
      { above_iff := ⟨hbelow, hp.isAncestorOf_of_below⟩
        location_eq := fun h => (isAncestorOf_iff.mp h).1
        absolute_eq := fun h => (hp.below_iff.mp (hbelow h)).2.1 }
  refine ⟨⟨fun h hmisleads => ?_, hranked⟩, fun hstated => hranked fun hmisleads => ?_,
    isAncestorOf_self p, isAncestorOf_asymm, fun _ => isAncestorOf_trans⟩
  · exact hmisleads.not_below hp (h.above_iff.mp hmisleads.isAncestorOf)
  · rw [hmisleads.isStated_eq_false] at hstated
    cases hstated

/-- A directory beside the one above, and two that lie one below the other in it; and two paths in
a store. -/
theorem ranked_iff_sideways :
    let p : Path := ⟨{}, ["..", "a"], false⟩
    let q : Path := ⟨{}, ["..", "a", "b"], false⟩
    let r : Path := ⟨{}, ["..", "a", "b", "c"], false⟩
    let s : Path := ⟨⟨some "lfs", some "nn"⟩, ["a"], true⟩
    let t : Path := ⟨⟨some "lfs", some "nn"⟩, ["a", "b", "c"], true⟩
    p.Normal ∧ q.Normal ∧ ¬p.Misleads q ∧ p.Ranked q ∧
      p.isAncestorOf q = true ∧ q.isAncestorOf p = false ∧
      q.isAncestorOf r = true ∧ p.isAncestorOf r = true ∧
      s.Normal ∧ t.Normal ∧ s.location.isStated = true ∧ s.Ranked t := by
  intro p q r s t
  have hpread : read "x/../../a" = .ok p := by decide +kernel
  have hqread : read "../a//b" = .ok q := by decide +kernel
  have hp := normal_of_read hpread
  have hq := normal_of_read hqread
  have hs : s.Normal := normal_of_ordinary rfl (by decide)
  have ht : t.Normal := normal_of_ordinary rfl (by decide)
  have hbelow : q.Below p := ⟨["b"], by decide, by decide, by decide⟩
  have hnot : ¬p.Misleads q := fun h => h.not_below hp hbelow
  obtain ⟨hranked, -, -, hasymm, htrans⟩ := ranked_iff hp hq
  have hpq : p.isAncestorOf q = true := by decide
  have hqr : q.isAncestorOf r = true := by decide
  exact ⟨hp, hq, hnot, hranked.mpr hnot, hpq, hasymm hpq, hqr, htrans r hpq hqr, hs, ht, rfl,
    (ranked_iff hs ht).2.1 rfl⟩

/-- A way up is taken to be above one that leads further up, although from any directory that is
deep enough it is the other way round.  And a path from the root is taken to be above one that
starts elsewhere. -/
theorem not_ranked_upwards :
    let p : Path := ⟨{}, [".."], false⟩
    let q : Path := ⟨{}, ["..", ".."], false⟩
    let dir : Path := ⟨{}, ["a", "b"], true⟩
    read ".." = .ok p ∧ read "../.." = .ok q ∧ p.isAncestorOf q = true ∧ ¬q.Below p ∧
      ¬p.Ranked q ∧ (dir.join p).Below (dir.join q) ∧
      ∃ p' q', read "/a" = .ok p' ∧ read "a/b" = .ok q' ∧ p'.isAncestorOf q' = true ∧
        ¬q'.Below p' ∧ ¬p'.Ranked q' := by
  intro p q dir
  have hp : read ".." = .ok p := by decide +kernel
  have hup : p.Misleads q := .upwards 1 [] Nat.one_ne_zero
  have hnot : ¬q.Below p := hup.not_below (normal_of_read hp)
  have hp' : read "/a" = .ok ⟨{}, ["a"], true⟩ := by decide +kernel
  have helse : Misleads ⟨{}, ["a"], true⟩ ⟨{}, ["a", "b"], false⟩ :=
    .elsewhere true ["a"] (List.cons_ne_nil "b" [])
  have hnot' := helse.not_below (normal_of_read hp')
  refine ⟨hp, by decide +kernel, hup.isAncestorOf, hnot,
    fun h => hnot (h.above_iff.mp hup.isAncestorOf), ⟨["a"], by decide, by decide, by decide⟩,
    _, _, hp', by decide +kernel, helse.isAncestorOf, hnot',
    fun h => hnot' (h.above_iff.mp helse.isAncestorOf)⟩

end Path

end MountSpace
