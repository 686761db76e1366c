import MountSpace.Proofs.Resolve.Walk

/-!
# Resolving as one exploration

`Atlas.resolve` begins a new walk at a root whenever it follows a link.  `Atlas.explore` never
does: it keeps the names that are known to be directories apart from the names it has still to
visit, and a link only rearranges the two lists.  Both give the same answer, failures included.

## Main definitions

* `Atlas.destination` — the mount to which a path from a root leads.
* `Atlas.explore` — the exploration.

Main statement: `Atlas.outcome_resolve`.
-/

namespace MountSpace.Atlas

/-- The mount to which a path from a root leads: the one it names, or else that of the link. -/
def destination (a : Atlas) (m : Mount) (target asked : Path) : Except Error Mount :=
  if target.location.isStated then a.registry.lookup target asked else .ok m

/-- Explores a mount below the directory `confirmed`, with the names `pending` still to visit.  A
link is counted before its target is looked at.  A relative target takes a confirmed name away for
each double dot in front and puts its other names before the pending ones; a target from a root
takes all of them away. -/
def explore (a : Atlas) (asked : Path) (follow : Bool) (bound : ℕ) (m : Mount)
    (confirmed pending : List String) : Except Error Resolution :=
  match pending with
  | [] => do return ⟨m.place confirmed, m, ← a.lstat m confirmed, true⟩
  | name :: rest => do
    match ← a.lstat m (confirmed ++ [name]) with
    | none => return ⟨m.place (confirmed ++ name :: rest), m, none, rest.isEmpty⟩
    | some status =>
      let here := m.place (confirmed ++ [name])
      if status.kind = .link ∧ (follow ∨ rest ≠ []) then
        match status.target, bound with
        | none, _ => throw .linkWithoutTarget
        | some _, 0 => throw (.tooManyLinks asked.text)
        | some target, bound + 1 =>
          if target.location.scheme = none ∧ target.location.authority ≠ none then
            throw (.linkToAuthorityWithoutScheme here.text target.text asked.text)
          else if target.absolute then do
            let owner ← a.destination m target asked
            a.explore asked follow bound owner [] (target.segments ++ rest)
          else
            a.explore asked follow bound m (confirmed.rdrop target.leadingDots)
              (target.afterDots ++ rest)
      else if rest = [] then return ⟨here, m, some status, true⟩
      else if status.kind = .file then throw (.parentIsFile here.text asked.text)
      else a.explore asked follow bound m (confirmed ++ [name]) rest
termination_by (bound, pending.length)

variable {a : Atlas} {m : Mount} {confirmed rest : List String} {name : String}
variable {target asked : Path} {follow : Bool}

/-- A link that names an authority and no scheme leads nowhere. -/
theorem onward_refused (link : Path)
    (h : target.location.scheme = none ∧ target.location.authority ≠ none) :
    onward m link target rest asked =
      .error (.linkToAuthorityWithoutScheme link.text target.text asked.text) := by
  rw [onward, if_pos]
  exact ⟨Option.isSome_iff_ne_none.mpr h.2, h.1⟩

/-- A relative target is spliced in at the directory of the link. -/
theorem onward_relative (hc : ∀ n ∈ confirmed, Ordinary n) (hr : ∀ n ∈ rest, Ordinary n)
    (ht : target.Normal) (hrel : target.absolute = false) :
    onward m (m.place (confirmed ++ [name])) target rest asked =
      .ok (m.place (confirmed.rdrop target.leadingDots ++ (target.afterDots ++ rest))) := by
  have hloc := ht.location_eq hrel
  have hloc' : target.location = {} := Location.isStated_eq_false_iff.mp hloc
  have hjoin : (m.place confirmed).join target =
      m.place (confirmed.rdrop target.leadingDots ++ target.afterDots) := by
    rw [Path.join, hrel, hloc]
    simp only [Bool.or_self, Bool.false_eq_true, if_false, Path.child, Mount.place]
    rw [Path.segments_eq_dots target, Path.collapse_dots hc ht.afterDots_ordinary]
  have hfront : ∀ n ∈ confirmed.rdrop target.leadingDots ++ target.afterDots, Ordinary n := by
    intro n hn
    rcases List.mem_append.mp hn with hn | hn
    · exact hc n (List.mem_of_mem_take hn)
    · exact ht.afterDots_ordinary n hn
  rw [onward, if_neg (by simp [hloc'])]
  simp only [hrel, Bool.not_false, if_true, Mount.place_parent?, hjoin]
  rw [m.place_child hfront hr, List.append_assoc]

/-- A target from a root is spliced in at that root. -/
theorem onward_absolute (link : Path) (hr : ∀ n ∈ rest, Ordinary n) (ht : target.Normal)
    (habs : target.absolute = true)
    (hs : ¬(target.location.scheme = none ∧ target.location.authority ≠ none)) :
    ∃ next, onward m link target rest asked = .ok next ∧ next.absolute = true ∧
      next.segments = target.segments ++ rest ∧
      next.location = if target.location.isStated then target.location else m.location := by
  have hnames : ∀ n ∈ target.segments ++ rest, Ordinary n := fun n hn =>
    (List.mem_append.mp hn).elim (ht.ordinary habs n) (hr n)
  have hcollapse : Path.collapse true (target.segments ++ rest) = target.segments ++ rest :=
    Path.collapse_ordinary hnames true
  have hrefuse : ¬(target.location.authority.isSome ∧ target.location.scheme = none) := by
    rintro ⟨h, h'⟩
    exact hs ⟨h', Option.isSome_iff_ne_none.mp h⟩
  rw [onward, if_neg hrefuse]
  cases hl : target.location.isStated <;>
    simp [habs, Path.child, Path.withLocation, hcollapse]

/-- The outcome of a walk that takes its first step from the confirmed directory. -/
theorem leg_of_confirmed (hl : a.registry.lookup (m.place []) asked = .ok m)
    (ho : ∀ n ∈ confirmed ++ name :: rest, Ordinary n) (hc : a.Confirmed m confirmed) :
    a.leg asked follow (m.place (confirmed ++ name :: rest)) =
      (a.advance m (m.place (confirmed ++ name :: rest)) asked follow (m.place confirmed)
        (name :: rest)).map (m, ·) := by
  have hfront : ∀ n ∈ confirmed, Ordinary n := fun n hn => ho n (by simp [hn])
  have hthrough : a.advance m (m.place (confirmed ++ name :: rest)) asked follow (m.place [])
      (confirmed ++ name :: rest) = a.advance m (m.place (confirmed ++ name :: rest)) asked follow
      (m.place ([] ++ confirmed)) (name :: rest) :=
    advance_append (by simpa using hfront) (by simpa using hc) (by simp)
  rw [leg_place (lookup_place hl _ _), walk_place (by simp), hthrough, List.nil_append]

/-- The exploration of a place whose last names are all confirmed. -/
theorem outcome_trace_confirmed {bound : ℕ} (hl : a.registry.lookup (m.place []) asked = .ok m)
    (ho : ∀ n ∈ confirmed, Ordinary n) (hc : a.Confirmed m confirmed) :
    (a.trace asked follow bound (m.place confirmed)).outcome =
      a.explore asked follow bound m confirmed [] := by
  have hleg : a.leg asked follow (m.place confirmed) = _ :=
    leg_place (lookup_place hl confirmed asked)
  rw [explore]
  by_cases hne : confirmed = []
  · subst hne
    rw [walk_place_nil] at hleg
    cases hs : a.lstat m [] with
    | error e => rw [trace_of_error (by rw [hleg, hs]; rfl)]; rfl
    | ok status => rw [trace_of_arrived (by rw [hleg, hs]; rfl)]; rfl
  · obtain ⟨status, hs, -⟩ := hc confirmed (List.prefix_refl _) hne
    rw [walk_place hne, advance_confirmed ho hne hc hs] at hleg
    rw [trace_of_arrived (by rw [hleg]; rfl), hs]
    rfl

/-- Following a link, given that walks with fewer links are explorations. -/
theorem outcome_trace_met {bound : ℕ}
    (ih : ∀ {m : Mount} {confirmed pending : List String},
      a.registry.lookup (m.place []) asked = .ok m →
      (∀ n ∈ confirmed ++ pending, Ordinary n) → a.Confirmed m confirmed →
      (a.trace asked follow bound (m.place (confirmed ++ pending))).outcome =
        a.explore asked follow bound m confirmed pending)
    (hl : a.registry.lookup (m.place []) asked = .ok m)
    (hfront : ∀ n ∈ confirmed, Ordinary n) (hrest : ∀ n ∈ rest, Ordinary n)
    (hc : a.Confirmed m confirmed) (ht : target.Normal) {current : Path}
    (hleg : a.leg asked follow current =
      .ok (m, .met (m.place (confirmed ++ [name])) target rest)) :
    (a.trace asked follow (bound + 1) current).outcome =
      if target.location.scheme = none ∧ target.location.authority ≠ none then
        .error (.linkToAuthorityWithoutScheme (m.place (confirmed ++ [name])).text target.text
          asked.text)
      else if target.absolute then do
        let owner ← a.destination m target asked
        a.explore asked follow bound owner [] (target.segments ++ rest)
      else
        a.explore asked follow bound m (confirmed.rdrop target.leadingDots)
          (target.afterDots ++ rest) := by
  by_cases hrefused : target.location.scheme = none ∧ target.location.authority ≠ none
  · rw [trace_of_met_refused hleg (onward_refused _ hrefused), if_pos hrefused]
  rw [if_neg hrefused]
  cases habs : target.absolute with
  | false =>
    have ho : ∀ n ∈ confirmed.rdrop target.leadingDots ++ (target.afterDots ++ rest),
        Ordinary n := by
      intro n hn
      rcases List.mem_append.mp hn with hn | hn
      · exact hfront n (List.mem_of_mem_take hn)
      · exact (List.mem_append.mp hn).elim (ht.afterDots_ordinary n) (hrest n)
    rw [trace_of_met hleg (onward_relative hfront hrest ht habs)]
    exact ih hl ho (hc.mono (List.take_prefix _ _))
  | true =>
    obtain ⟨next, hnext, hna, hns, hnl⟩ :=
      onward_absolute (m := m) (m.place (confirmed ++ [name])) hrest ht habs hrefused
    have ho : ∀ n ∈ target.segments ++ rest, Ordinary n := fun n hn =>
      (List.mem_append.mp hn).elim (ht.ordinary habs n) (hrest n)
    have howner : a.registry.lookup next asked = a.destination m target asked := by
      rw [destination]
      split
      · rename_i hstated
        exact lookup_congr (by rw [hnl, if_pos hstated]) asked
      · rename_i hstated
        rw [← hl]
        exact lookup_congr (by rw [hnl, if_neg hstated, Mount.place_location]) asked
    rw [trace_of_met hleg hnext]
    cases hd : a.destination m target asked with
    | error e =>
      rw [hd] at howner
      rw [trace_of_error (by rw [leg, howner]; rfl)]
      rfl
    | ok owner =>
      rw [hd] at howner
      have hplace : next = owner.place ([] ++ (target.segments ++ rest)) := by
        rw [owner.eq_place (Registry.location_of_lookup howner).symm hna, hns]
        rfl
      rw [hplace]
      exact ih (lookup_place howner [] asked) ho (confirmed_nil a owner)

/-- Walking anew from the root, with the confirmed names in front, comes to where the exploration
comes that goes on from the confirmed directory. -/
theorem outcome_trace (ha : a.TargetsNormal) (bound : ℕ) {m : Mount}
    {confirmed pending : List String} (hl : a.registry.lookup (m.place []) asked = .ok m)
    (ho : ∀ n ∈ confirmed ++ pending, Ordinary n) (hc : a.Confirmed m confirmed) :
    (a.trace asked follow bound (m.place (confirmed ++ pending))).outcome =
      a.explore asked follow bound m confirmed pending := by
  induction bound using Nat.strong_induction_on generalizing m confirmed pending with
  | _ bound ihLink =>
  induction pending generalizing confirmed with
  | nil =>
    rw [List.append_nil] at ho ⊢
    exact outcome_trace_confirmed hl ho hc
  | cons name rest ihName =>
    have hleg : a.leg asked follow (m.place (confirmed ++ name :: rest)) = _ :=
      leg_of_confirmed hl ho hc
    have hfront : ∀ n ∈ confirmed, Ordinary n := fun n hn => ho n (by simp [hn])
    have hrest : ∀ n ∈ rest, Ordinary n := fun n hn => ho n (by simp [hn])
    rw [advance_cons hfront (ho name (by simp))] at hleg
    rw [explore]
    cases hs : a.lstat m (confirmed ++ [name]) with
    | error e => rw [trace_of_error (by rw [hleg, hs]; rfl)]; rfl
    | ok found =>
    cases found with
    | none => rw [trace_of_arrived (by rw [hleg, hs]; rfl)]; rfl
    | some status =>
    rw [hs] at hleg
    simp only [bind, Except.bind, pure, Except.pure, throw, throwThe, MonadExceptOf.throw]
      at hleg ⊢
    by_cases hfollow : status.kind = .link ∧ (follow = true ∨ rest ≠ [])
    · rw [if_pos hfollow] at hleg ⊢
      cases ht : status.target with
      | none =>
        rw [ht] at hleg
        rw [trace_of_error hleg]
      | some target =>
      rw [ht] at hleg
      cases bound with
      | zero => rw [trace_of_met_zero hleg]
      | succ bound =>
        exact outcome_trace_met (ihLink bound (Nat.lt_succ_self bound)) hl hfront hrest hc
          (ha _ _ _ _ hs hfollow.1 ht) hleg
    · rw [if_neg hfollow] at hleg ⊢
      by_cases hr : rest = []
      · subst hr
        rw [trace_of_arrived hleg]
        rfl
      rw [if_neg hr] at hleg ⊢
      by_cases hk : status.kind = .file
      · rw [if_pos hk] at hleg ⊢
        rw [trace_of_error hleg]
      rw [if_neg hk]
      -- What is neither a link nor a file is one more confirmed directory.
      have hd : a.IsDirectory m (confirmed ++ [name]) := by
        refine ⟨status, hs, ?_⟩
        cases hkind : status.kind <;> simp_all
      rw [← ihName (by simpa using ho) (hc.concat hd)]
      simp

/-- **Resolving is one exploration.**  It ends where the exploration ends that starts at the root
of the mount owning the path, or fails as that does. -/
theorem outcome_resolve (a : Atlas) (ha : a.TargetsNormal) (at_ : Standpoint) (bound : ℕ)
    (path : Path) (hp : path.Normal) (habs : path.absolute = true) (follow : Bool) :
    (a.resolve at_ bound path follow).outcome = (do
      let owner ← a.registry.lookup (start at_ path) (start at_ path)
      a.explore (start at_ path) follow bound owner [] path.segments) := by
  rw [resolve]
  cases hl : a.registry.lookup (start at_ path) (start at_ path) with
  | error e => rw [trace_of_error (by rw [leg, hl]; rfl)]; rfl
  | ok owner =>
    have hplace := owner.eq_place (Registry.location_of_lookup hl).symm (by simpa)
    have ho : ∀ n ∈ [] ++ (start at_ path).segments, Ordinary n := by simpa using hp.ordinary habs
    have key : (a.trace (start at_ path) follow bound
        (owner.place ([] ++ (start at_ path).segments))).outcome = _ :=
      outcome_trace ha bound (lookup_place hl [] (start at_ path)) ho (confirmed_nil a owner)
    rw [List.nil_append, ← hplace, start_segments] at key
    exact key

/-- Two stores.  In the first, the link `d/up` leads out of its directory to the link `over`, which
leads to the directory `x` of the second. -/
def crossing : Atlas where
  registry :=
    let near : Mount := ⟨0, { storage := .disk "near", capability := .onDisk "file" }, none, ""⟩
    let far : Mount := ⟨1, { storage := .disk "far", capability := .onDisk "mem" }, none, ""⟩
    (Registry.add {} near).add far
  status m text :=
    let entry (kind : Kind) (target : Option Path) :=
      .ok (some ⟨.root {}, kind, 0, none, none, target⟩)
    match m.serial, text with
    | 0, "/d" => entry .directory none
    | 0, "/d/up" => entry .link (some { segments := ["..", "over"], absolute := false })
    | 0, "/over" => entry .link (some { location := ⟨some "mem", none⟩, segments := ["x"] })
    | 1, "/x" => entry .directory none
    | _, _ => .ok none

theorem crossing_targetsNormal : crossing.TargetsNormal := by
  intro m text status target hs hk ht
  simp only [crossing] at hs
  split at hs
  all_goals
    simp only [Except.ok.injEq, Option.some.injEq, reduceCtorEq] at hs
  all_goals subst hs
  all_goals simp only [Option.some.injEq, reduceCtorEq] at ht hk
  · subst ht
    exact ⟨⟨1, ["over"], rfl, by decide, by simp⟩, by decide, by decide⟩
  · subst ht
    exact Path.normal_of_ordinary rfl (by decide)

/-- The two links on the way to a new name are followed into the second store. -/
theorem outcome_resolve_crossing :
    crossing.TargetsNormal ∧
    let at_ : Standpoint := ⟨.root ⟨some "file", none⟩, .onDisk "file"⟩
    let path : Path := { segments := ["d", "up", "new"] }
    path.Normal ∧ (crossing.resolve at_ 2 path true).outcome = (do
      let owner ← crossing.registry.lookup (start at_ path) (start at_ path)
      crossing.explore (start at_ path) true 2 owner [] path.segments) ∧
    ((crossing.resolve at_ 2 path true).outcome.map fun r => (r.path.text, r.parentExists)) =
      .ok ("mem:///x/new", true) := by
  have hp : Path.Normal { segments := ["d", "up", "new"] } :=
    Path.normal_of_ordinary rfl (by decide)
  refine ⟨crossing_targetsNormal, hp, ?_, ?_⟩
  · exact outcome_resolve crossing crossing_targetsNormal _ 2 _ hp rfl true
  · rfl

end MountSpace.Atlas
