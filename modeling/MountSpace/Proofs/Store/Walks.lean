import MountSpace.Proofs.Outcome
import MountSpace.Proofs.Path.Normal
import MountSpace.Store.HostTree

/-!
# Walks of the host

What the host does on a way is done at the place that the way spells, as long as the walk meets no
link.  Changing entries keeps every directory, and taking entries away makes nothing new.

## Main definitions

* `HostTree.node?` — what stands at a place.
* `HostTree.Straight` — no link stands on a way before its last name.
* `HostTree.Base` — a directory in the root from which ways start.
* `HostTree.DirectoriesStay`, `HostTree.Shrinks` — what operations keep.
* `HostTree.relocate` — what a move does to the entries.

Main statements: `HostTree.Base.place_eq`, `HostTree.Base.holder_eq`.
-/

namespace MountSpace

/-! ## Long ways -/

namespace HostLimits

theorem le_foldl_way (names : List String) (bytes : ℕ) :
    bytes ≤ names.foldl (fun n name => n + 1 + name.utf8ByteSize) bytes := by
  induction names generalizing bytes with
  | nil => exact le_rfl
  | cons name names ih =>
    rw [List.foldl_cons]
    have := ih (bytes + 1 + name.utf8ByteSize)
    omega

/-- A part of a way is not too long if the way is not. -/
theorem refusesWay_mono {l : HostLimits} {front names : List String} (h : front <+: names)
    (hw : l.refusesWay names = false) : l.refusesWay front = false := by
  obtain ⟨rest, rfl⟩ := h
  unfold refusesWay refusesText at hw ⊢
  rw [List.foldl_append] at hw
  cases hbytes : l.textBytes with
  | none => rfl
  | some most =>
    rw [hbytes] at hw
    simp only [Option.any_some, decide_eq_false_iff_not, not_lt] at hw ⊢
    exact (le_foldl_way rest _).trans hw

end HostLimits

namespace HostTree

variable {t t' : HostTree} {dir place other src dest : Place} {names : List String} {name : String}
variable {now : Instant}

/-! ## What stands at a place -/

/-- What stands at a place. -/
def node? (t : HostTree) (place : Place) : Option Node := (t.find? place).map HostEntry.node

theorem node?_eq_some {node : Node} : t.node? place = some node ↔
    ∃ entry, t.find? place = some entry ∧ entry.node = node := Option.map_eq_some_iff

theorem node?_put_self (entry : HostEntry) : (t.put place entry).node? place = some entry.node := by
  rw [node?, find?_put_self]
  rfl

theorem node?_put_of_ne (h : other ≠ place) (entry : HostEntry) :
    (t.put place entry).node? other = t.node? other := by
  rw [node?, find?_put_of_ne t h, node?]

@[simp] theorem node?_touch : (t.touch now place).node? other = t.node? other := by
  rw [node?, touch, find?_modify]
  split
  · rename_i heq
    rw [eq_of_beq heq, node?, Option.map_map]
    rfl
  · rfl

theorem node?_prune :
    (t.prune place).node? other = if place.isPrefixOf other then none else t.node? other := by
  rw [node?, find?_prune]
  split <;> rfl

/-! ## Straight ways -/

/-- No link stands on the way from a directory before the last of its names, as far as a walk
gets. -/
def Straight (t : HostTree) (dir : Place) : List String → Prop
  | [] | [_] => True
  | name :: rest => t.limits.refusesName name = true ∨
    (∀ text, t.node? (dir ++ [name]) ≠ some (.link text)) ∧
      (t.node? (dir ++ [name]) = some .directory → t.Straight (dir ++ [name]) rest)

/-- A step of a walk with names left, whatever its name. -/
theorem advance_on {follow : Bool} (hne : names ≠ []) :
    t.advance follow dir (name :: names) =
      if t.limits.refusesName name then .failed .nameTooLong
      else match t.node? (next dir name) with
        | some .directory => t.advance follow (next dir name) names
        | some (.link text) => .link dir text names
        | some (.file _) => .failed .notDirectory
        | none => .failed .noEntry := by
  obtain ⟨last, rest, rfl⟩ := List.exists_cons_of_ne_nil hne
  conv_lhs => unfold HostTree.advance
  unfold node?
  rcases (t.find? (next dir name)).map HostEntry.node with - | (- | - | -) <;> rfl

/-- The last step of a walk, whatever its name. -/
theorem advance_end {follow : Bool} :
    t.advance follow dir [name] = if t.limits.refusesName name then .failed .nameTooLong
      else match t.node? (next dir name) with
        | some (.link text) => if follow then .link dir text [] else .at_ (next dir name)
        | _ => .at_ (next dir name) := by
  conv_lhs => unfold HostTree.advance
  unfold node?
  rcases (t.find? (next dir name)).map HostEntry.node with - | (- | - | -) <;> rfl

theorem next_ordinary (h : Ordinary name) (dir : Place) : next dir name = dir ++ [name] := by
  rw [next, if_neg h.2.2.1, if_neg h.2.1]

theorem isDots_of_ordinary (h : Ordinary name) : isDots name = false := by
  rw [isDots, beq_eq_false_iff_ne.mpr h.2.1, beq_eq_false_iff_ne.mpr h.2.2.1]
  rfl

/-- One step of a walk that is not the last. -/
theorem advance_cons {follow : Bool} (h : Ordinary name) (hne : names ≠ []) :
    t.advance follow dir (name :: names) =
      if t.limits.refusesName name then .failed .nameTooLong
      else match t.node? (dir ++ [name]) with
        | some .directory => t.advance follow (dir ++ [name]) names
        | some (.link text) => .link dir text names
        | some (.file _) => .failed .notDirectory
        | none => .failed .noEntry := by
  rw [advance_on hne, next_ordinary h]

/-- The last step of a walk. -/
theorem advance_last {follow : Bool} (h : Ordinary name) :
    t.advance follow dir [name] = if t.limits.refusesName name then .failed .nameTooLong
      else match t.node? (dir ++ [name]) with
        | some (.link text) => if follow then .link dir text [] else .at_ (dir ++ [name])
        | _ => .at_ (dir ++ [name]) := by
  rw [advance_end, next_ordinary h]

theorem locate_of_at {follow : Bool} {links : ℕ} (h : t.advance follow dir names = .at_ place) :
    t.locate follow links dir names = .ok place := by
  unfold locate
  rw [h]

theorem locate_of_failed {follow : Bool} {links : ℕ} {cause : HostError}
    (h : t.advance follow dir names = .failed cause) :
    t.locate follow links dir names = .error cause := by
  unfold locate
  rw [h]

/-- A way leads to where its walk comes, if it is not too long. -/
theorem placeOf_eq_ok {follow : Bool} : t.placeOf follow names = .ok place ↔
    t.limits.refusesWay names = false ∧ t.locate follow maxLinks [] names = .ok place := by
  unfold placeOf
  cases t.limits.refusesWay names <;> simp

theorem placeOf_last (h : Ordinary name) (hp : t.placeOf false [name] = .ok place) :
    t.limits.refusesWay [name] = false ∧ t.limits.refusesName name = false ∧ place = [name] := by
  obtain ⟨hway, hlocate⟩ := placeOf_eq_ok.mp hp
  by_cases hname : t.limits.refusesName name = true
  · rw [locate_of_failed ((advance_last h).trans (if_pos hname))] at hlocate
    cases hlocate
  have hwalk : t.advance false [] [name] = .at_ [name] := by
    rw [advance_last h, if_neg hname]
    split <;> rfl
  rw [locate_of_at hwalk] at hlocate
  cases hlocate
  exact ⟨hway, by simpa using hname, rfl⟩

/-- What is found at the end of a way is what stands there. -/
theorem stat_eq_ok {follow : Bool} {entry : HostEntry} : t.stat follow names = .ok entry ↔
    ∃ place, t.placeOf follow names = .ok place ∧ t.find? place = some entry := by
  constructor
  · intro h
    obtain ⟨place, hp, h⟩ := bind_eq_ok.mp h
    split at h
    · rename_i hfind
      cases h
      exact ⟨place, hp, hfind⟩
    · cases h
  · rintro ⟨place, hp, hfind⟩
    simp only [stat, hp, hfind, bind, Except.bind]

theorem stat_of_refused {follow : Bool} (h : t.limits.refusesWay names = true) :
    t.stat follow names = .error .nameTooLong := by
  simp only [stat, placeOf, h, if_true, bind, Except.bind]

/-- The holder of a way that is not too long is the directory to which all but its last name
lead. -/
theorem holder_eq_ok : t.holder names = .ok (dir, name) ↔
    t.limits.refusesWay names = false ∧ t.placeOf true names.dropLast = .ok dir ∧
      t.node? dir = some .directory ∧ names.getLast?.getD "." = name := by
  constructor
  · intro h
    unfold holder at h
    split at h
    · cases h
    rename_i hway
    obtain ⟨found, hp, h⟩ := bind_eq_ok.mp h
    split at h <;> cases h
    rename_i hnode
    exact ⟨by simpa using hway, hp, hnode, rfl⟩
  · rintro ⟨hway, hp, hnode, rfl⟩
    rw [node?] at hnode
    simp only [holder, hway, hp, hnode, bind, Except.bind]
    rfl

theorem node?_of_holder (h : t.holder names = .ok (dir, name)) :
    t.node? dir = some .directory := (holder_eq_ok.mp h).2.2.1

/-- A new entry can be made where nothing stands, in a directory that is there. -/
theorem vacancy_eq_ok : t.vacancy names = .ok place ↔ ∃ dir name,
    t.holder names = .ok (dir, name) ∧ isDots name = false ∧
      t.limits.refusesName name = false ∧ t.find? place = none ∧ place = dir ++ [name] := by
  constructor
  · intro h
    obtain ⟨⟨dir, name⟩, hh, h⟩ := bind_eq_ok.mp h
    dsimp only at h
    split at h
    · cases h
    rename_i hdots
    split at h
    · cases h
    rename_i hname
    split at h
    · cases h
    rename_i hfree
    cases h
    exact ⟨dir, name, hh, by simpa using hdots, by simpa using hname, by simpa using hfree, rfl⟩
  · rintro ⟨dir, name, hh, hdots, hname, hfree, rfl⟩
    simp only [vacancy, hh, hdots, hname, hfree, bind, Except.bind]
    rfl

/-- A walk that ends, ends where its way leads, whether it succeeds or not. -/
def EndsAt (p : Progress) (place : Place) : Prop := p = .at_ place ∨ ∃ cause, p = .failed cause

namespace Straight

/-- A walk along a straight way that follows no link in the last place ends where it leads. -/
theorem advance (h : t.Straight dir names) (ho : ∀ n ∈ names, Ordinary n) :
    EndsAt (t.advance false dir names) (dir ++ names) := by
  induction names generalizing dir with
  | nil => exact .inl (by simp [HostTree.advance])
  | cons name rest ih =>
    have hname := ho name (by simp)
    rcases rest with - | ⟨next, rest⟩
    · rw [advance_last hname]
      split
      · exact .inr ⟨_, rfl⟩
      · split <;> exact .inl rfl
    rw [advance_cons hname (by simp)]
    split
    · exact .inr ⟨_, rfl⟩
    rename_i hshort
    obtain ⟨hlink, hdir⟩ := h.resolve_left hshort
    split
    · rename_i hnode
      have hrest := ih (hdir hnode) fun n hn => ho n (by simp [List.mem_cons.mp hn])
      rwa [List.append_assoc] at hrest
    · rename_i text hnode
      exact absurd hnode (hlink text)
    · exact .inr ⟨_, rfl⟩
    · exact .inr ⟨_, rfl⟩

/-- A walk to the directory that holds the end of a straight way ends there. -/
theorem advance_dropLast (h : t.Straight dir names) (ho : ∀ n ∈ names, Ordinary n) :
    EndsAt (t.advance true dir names.dropLast) (dir ++ names.dropLast) := by
  induction names generalizing dir with
  | nil => exact .inl (by simp [HostTree.advance])
  | cons name rest ih =>
    have hname := ho name (by simp)
    rcases rest with - | ⟨second, rest⟩
    · exact .inl (by simp [HostTree.advance])
    rcases h with hlong | ⟨hlink, hdir⟩
    · rw [List.dropLast_cons_cons]
      unfold HostTree.advance
      rw [if_pos hlong]
      exact .inr ⟨_, rfl⟩
    have hrest : t.node? (dir ++ [name]) = some .directory →
        EndsAt (t.advance true (dir ++ [name]) (second :: rest).dropLast)
          (dir ++ (name :: (second :: rest).dropLast)) := by
      intro hnode
      have hnext := ih (hdir hnode) fun n hn => ho n (by simp [List.mem_cons.mp hn])
      rwa [List.append_assoc] at hnext
    rw [List.dropLast_cons_cons]
    by_cases hnil : (second :: rest).dropLast = []
    · rw [hnil, advance_last hname]
      split
      · exact .inr ⟨_, rfl⟩
      · split
        · rename_i text hnode
          exact absurd hnode (hlink text)
        · exact .inl rfl
    · rw [advance_cons hname hnil]
      split
      · exact .inr ⟨_, rfl⟩
      split
      · rename_i hnode
        exact hrest hnode
      · rename_i text hnode
        exact absurd hnode (hlink text)
      · exact .inr ⟨_, rfl⟩
      · exact .inr ⟨_, rfl⟩

end Straight

/-! ## Ways from a directory in the root -/

/-- Ways can start at the directory `base` in the root. -/
structure Base (t : HostTree) (base : String) : Prop where
  ordinary : Ordinary base
  way : t.limits.refusesWay [base] = false
  name : t.limits.refusesName base = false
  node : t.node? [base] = some .directory

/-- A walk that ends where its way leads has come there if the way leads anywhere. -/
theorem at_of_placeOf {follow : Bool} (h : EndsAt (t.advance follow [] names) place)
    (hp : t.placeOf follow names = .ok other) :
    t.advance follow [] names = .at_ place ∧ other = place := by
  obtain ⟨-, hlocate⟩ := placeOf_eq_ok.mp hp
  rcases h with h | ⟨cause, h⟩
  · rw [locate_of_at h] at hlocate
    cases hlocate
    exact ⟨h, rfl⟩
  · rw [locate_of_failed h] at hlocate
    cases hlocate

theorem eq_of_placeOf {follow : Bool} (h : EndsAt (t.advance follow [] names) place)
    (hp : t.placeOf follow names = .ok other) : other = place := (at_of_placeOf h hp).2

section

variable {base : String} {follow : Bool} (ho : Ordinary base)
  (hl : ∀ text, t.node? [base] ≠ some (.link text))

include ho hl

theorem endsAt_single : EndsAt (t.advance follow [] [base]) [base] := by
  rw [advance_last ho]
  split
  · exact .inr ⟨_, rfl⟩
  · split
    · rename_i text hnode
      exact absurd hnode (hl text)
    · exact .inl rfl

/-- A way through a base, or to one that is a directory, starts at that directory, unless a link
stands there. -/
theorem base_of_placeOf (hp : t.placeOf follow (base :: names) = .ok place)
    (hdir : names = [] → t.node? place = some .directory) : t.Base base := by
  obtain ⟨hway, hlocate⟩ := placeOf_eq_ok.mp hp
  have hway' : t.limits.refusesWay [base] = false := HostLimits.refusesWay_mono ⟨names, rfl⟩ hway
  have hname : t.limits.refusesName base = false := by
    by_contra hlong
    have hwalk : t.advance follow [] (base :: names) = .failed .nameTooLong := by
      unfold HostTree.advance
      exact if_pos (by simpa using hlong)
    cases (locate_of_failed hwalk).symm.trans hlocate
  refine ⟨ho, hway', hname, ?_⟩
  by_cases hne : names = []
  · subst hne
    have hplace := eq_of_placeOf (endsAt_single ho hl) hp
    exact hplace ▸ hdir rfl
  have hwalk : t.advance follow [] (base :: names) = _ := advance_cons ho hne
  rw [if_neg (by simp [hname]), List.nil_append] at hwalk
  cases hnode : t.node? [base] with
  | none =>
    rw [hnode] at hwalk
    cases (locate_of_failed hwalk).symm.trans hlocate
  | some node =>
    rw [hnode] at hwalk
    cases node with
    | directory => rfl
    | link text => exact absurd hnode (hl text)
    | file content => cases (locate_of_failed hwalk).symm.trans hlocate

theorem base_of_holder (hne : names ≠ []) (hh : t.holder (base :: names) = .ok (dir, name)) :
    t.Base base := by
  obtain ⟨-, hp, hdir, -⟩ := holder_eq_ok.mp hh
  rw [List.dropLast_cons_of_ne_nil hne] at hp
  exact base_of_placeOf ho hl hp fun _ => hdir

end

namespace Base

variable {base : String} (hb : t.Base base)

include hb

theorem advance (follow : Bool) (hne : names ≠ []) :
    t.advance follow [] (base :: names) = t.advance follow [base] names := by
  rw [advance_cons hb.ordinary hne, hb.name, List.nil_append, hb.node]
  rfl

theorem advance_nil (follow : Bool) : t.advance follow [] [base] = .at_ [base] := by
  rw [advance_last hb.ordinary, hb.name, List.nil_append, hb.node]
  rfl

theorem placeOf_nil : t.placeOf false [base] = .ok [base] :=
  placeOf_eq_ok.mpr ⟨hb.way, locate_of_at (hb.advance_nil false)⟩

theorem stat_nil : ∃ entry, t.stat false [base] = .ok entry ∧ entry.node = .directory := by
  obtain ⟨entry, hfind, hnode⟩ := node?_eq_some.mp hb.node
  exact ⟨entry, stat_eq_ok.mpr ⟨_, hb.placeOf_nil, hfind⟩, hnode⟩

/-- A straight way leads to the place that it spells. -/
theorem place_eq (hs : t.Straight [base] names) (ho : ∀ n ∈ names, Ordinary n)
    (hp : t.placeOf false (base :: names) = .ok place) : place = base :: names := by
  refine eq_of_placeOf ?_ hp
  by_cases hne : names = []
  · subst hne
    exact .inl (hb.advance_nil false)
  · rw [hb.advance false hne]
    exact hs.advance ho

/-- The directory that holds the end of a straight way is the one that the way spells. -/
theorem holder_eq (hs : t.Straight [base] names) (ho : ∀ n ∈ names, Ordinary n)
    (hne : names ≠ []) (hh : t.holder (base :: names) = .ok (dir, name)) :
    dir = base :: names.dropLast ∧ name = names.getLast hne := by
  obtain ⟨-, hp, -, rfl⟩ := holder_eq_ok.mp hh
  constructor
  · refine eq_of_placeOf ?_ hp
    rw [List.dropLast_cons_of_ne_nil hne]
    by_cases hnil : names.dropLast = []
    · rw [hnil]
      exact .inl (hb.advance_nil true)
    · rw [hb.advance true hnil]
      exact hs.advance_dropLast ho
  · obtain ⟨first, rest, rfl⟩ := List.exists_cons_of_ne_nil hne
    rw [List.getLast?_cons_cons, List.getLast?_eq_some_getLast (by simp)]
    rfl

end Base

/-! ## Operations that keep every directory -/

/-- The same limits, and every directory is still there. -/
structure DirectoriesStay (t t' : HostTree) : Prop where
  limits : t'.limits = t.limits
  node : ∀ place, t.node? place = some .directory → t'.node? place = some .directory

theorem Base.of_stay {base : String} (hb : t.Base base) (h : DirectoriesStay t t') :
    t'.Base base :=
  ⟨hb.ordinary, h.limits ▸ hb.way, h.limits ▸ hb.name, h.node _ hb.node⟩

theorem DirectoriesStay.refl (t : HostTree) : DirectoriesStay t t := ⟨rfl, fun _ h => h⟩

/-- Nothing but a directory is replaced. -/
theorem stay_put (entry : HostEntry) (h : t.node? place ≠ some .directory) :
    DirectoriesStay t (t.put place entry) where
  limits := rfl
  node other hother := by
    have hne : other ≠ place := by
      rintro rfl
      exact h hother
    rwa [node?_put_of_ne hne]

/-- A new entry is made where there is none. -/
theorem find?_of_vacancy (h : t.vacancy names = .ok place) : t.find? place = none := by
  obtain ⟨dir, name, -, -, -, hfree, -⟩ := vacancy_eq_ok.mp h
  exact hfree

/-! ## Operations that take entries away -/

/-- The same limits, and nothing new anywhere. -/
structure Shrinks (t t' : HostTree) : Prop where
  limits : t'.limits = t.limits
  node : ∀ place, t'.node? place = t.node? place ∨ t'.node? place = none

theorem Shrinks.refl (t : HostTree) : Shrinks t t := ⟨rfl, fun _ => .inl rfl⟩

/-- What is taken away makes no way less straight. -/
theorem Straight.of_shrinks (hs : t.Straight dir names) (h : Shrinks t t') :
    t'.Straight dir names := by
  induction names generalizing dir with
  | nil => trivial
  | cons name rest ih =>
    rcases rest with - | ⟨second, rest⟩
    · trivial
    rcases hs with hlong | ⟨hlink, hdir⟩
    · exact .inl (h.limits ▸ hlong)
    rcases h.node (dir ++ [name]) with hsame | hnone
    · refine .inr ⟨fun text => hsame ▸ hlink text, fun hnode => ?_⟩
      exact ih (hdir (hsame ▸ hnode))
    · refine .inr ⟨fun text => ?_, fun hnode => ?_⟩
      · rw [hnone]
        simp
      · rw [hnone] at hnode
        cases hnode

theorem shrinks_prune : Shrinks t ((t.prune place).touch now dir) where
  limits := rfl
  node other := by
    rw [node?_touch, node?_prune]
    split
    · exact .inr rfl
    · exact .inl rfl

namespace Base

variable {base : String} (hb : t.Base base)

include hb

theorem prune (hne : names ≠ []) : ((t.prune (base :: names)).touch now dir).Base base := by
  refine ⟨hb.ordinary, hb.way, hb.name, ?_⟩
  obtain ⟨first, rest, rfl⟩ := List.exists_cons_of_ne_nil hne
  rw [node?_touch, node?_prune, if_neg (by simp [List.isPrefixOf])]
  exact hb.node

variable (hs : t.Straight [base] names) (ho : ∀ n ∈ names, Ordinary n) (hne : names ≠ [])

include hs ho hne

theorem unlink (h : t.unlink now (base :: names) = .ok t') : t'.Base base ∧ Shrinks t t' := by
  unfold HostTree.unlink at h
  obtain ⟨place, hp, h⟩ := bind_eq_ok.mp h
  cases h
  rw [hb.place_eq hs ho hp]
  exact ⟨hb.prune hne, shrinks_prune⟩

theorem holder_place (hh : t.holder (base :: names) = .ok (dir, name)) :
    dir ++ [name] = base :: names ∧ isDots name = false := by
  obtain ⟨rfl, rfl⟩ := hb.holder_eq hs ho hne hh
  exact ⟨by rw [List.cons_append, List.dropLast_append_getLast],
    isDots_of_ordinary (ho _ (List.getLast_mem hne))⟩

theorem removeDirectory (h : t.removeDirectory now (base :: names) = .ok t') :
    t'.Base base ∧ Shrinks t t' := by
  unfold HostTree.removeDirectory at h
  obtain ⟨⟨dir, name⟩, hh, h⟩ := bind_eq_ok.mp h
  dsimp only at h
  split at h <;> cases h
  rw [(hb.holder_place hs ho hne hh).1]
  exact ⟨hb.prune hne, shrinks_prune⟩

theorem removeTree : (t.removeTree now (base :: names)).2.Base base ∧
    Shrinks t (t.removeTree now (base :: names)).2 := by
  unfold HostTree.removeTree
  cases hh : t.holder (base :: names) with
  | error e => exact ⟨hb, .refl t⟩
  | ok found =>
    obtain ⟨dir, name⟩ := found
    obtain ⟨hplace, hdots⟩ := hb.holder_place hs ho hne hh
    dsimp only
    rw [hdots, hplace]
    exact ⟨hb.prune hne, shrinks_prune⟩

end Base

/-! ## Moving -/

/-- The tree with every entry at or below `src` at or below `dest`. -/
def relocate (t : HostTree) (src dest : Place) : HostTree :=
  { t with entries := t.entries.map fun e => (rebase src dest e.1, e.2) }

theorem rebase_append (src dest rest : Place) : rebase src dest (src ++ rest) = dest ++ rest := by
  rw [rebase, if_pos (List.isPrefixOf_iff_prefix.mpr (List.prefix_append _ _)), List.drop_left]

theorem rebase_of_not_below (h : ¬src <+: place) : rebase src dest place = place := by
  rw [rebase, if_neg fun hp => h (List.isPrefixOf_iff_prefix.mp hp)]

/-- Moving leaves what is neither at nor below its ends. -/
theorem find?_relocate (hsrc : ¬src <+: place) (hdest : ¬dest <+: place) :
    (t.relocate src dest).find? place = t.find? place := by
  unfold find? relocate
  dsimp only
  induction t.entries with
  | nil => rfl
  | cons e rest ih =>
    rw [List.map_cons, List.lookup_cons, ih]
    obtain ⟨key, entry⟩ := e
    rw [List.lookup_cons]
    dsimp only
    have hkey : (place == rebase src dest key) = (place == key) := by
      by_cases hin : src <+: key
      · obtain ⟨more, rfl⟩ := hin
        rw [rebase_append, beq_eq_false_iff_ne.mpr, beq_eq_false_iff_ne.mpr]
        · rintro rfl
          exact hsrc (List.prefix_append _ _)
        · rintro rfl
          exact hdest (List.prefix_append _ _)
      · rw [rebase_of_not_below hin]
    rw [hkey]

/-- A move that succeeds relocates an entry to a directory that is not taken along. -/
theorem relocate_of_move (h : t.move now src dest = .ok t') :
    ∃ srcDir srcName destDir destName, t.holder src = .ok (srcDir, srcName) ∧
      t.holder dest = .ok (destDir, destName) ∧ t.limits.refusesName srcName = false ∧
      t.limits.refusesName destName = false ∧ (t.find? (srcDir ++ [srcName])).isSome ∧
      ¬srcDir ++ [srcName] <+: destDir ∧
      t' = ((t.relocate (srcDir ++ [srcName]) (destDir ++ [destName])).touch now srcDir).touch now
        destDir := by
  obtain ⟨⟨srcDir, srcName⟩, hsrc, h⟩ := bind_eq_ok.mp h
  obtain ⟨⟨destDir, destName⟩, hdest, h⟩ := bind_eq_ok.mp h
  dsimp only at h
  split at h
  · cases h
  split at h
  · cases h
  rename_i hshort
  split at h
  · cases h
  rename_i hthere
  split at h
  · cases h
  rename_i hshort'
  split at h
  · cases h
  rename_i hout
  cases h
  refine ⟨srcDir, srcName, destDir, destName, hsrc, hdest, by simpa using hshort,
    by simpa using hshort', by simpa [Option.isSome_iff_ne_none] using hthere,
    fun hp => hout (List.isPrefixOf_iff_prefix.mpr hp), rfl⟩

theorem Base.move {base : String} (hb : t.Base base) {src dest : List String}
    (hs : t.Straight [base] src) (hd : t.Straight [base] dest) (hso : ∀ n ∈ src, Ordinary n)
    (hdo : ∀ n ∈ dest, Ordinary n) (hsne : src ≠ []) (hdne : dest ≠ [])
    (h : t.move now (base :: src) (base :: dest) = .ok t') : t'.Base base := by
  obtain ⟨srcDir, srcName, destDir, destName, hsh, hdh, -, -, -, -, rfl⟩ := relocate_of_move h
  rw [(hb.holder_place hs hso hsne hsh).1, (hb.holder_place hd hdo hdne hdh).1]
  refine ⟨hb.ordinary, hb.way, hb.name, ?_⟩
  rw [node?_touch, node?_touch, node?, find?_relocate]
  · exact hb.node
  · simpa using hsne
  · simpa using hdne

/-- A single name is held by the root. -/
theorem append_of_holder_single {base : String} (hh : t.holder [base] = .ok (dir, name)) :
    dir ++ [name] = [base] := by
  obtain ⟨-, hp, -, rfl⟩ := holder_eq_ok.mp hh
  have hstart : EndsAt (t.advance true [] []) [] := .inl rfl
  rw [eq_of_placeOf hstart hp]
  rfl

/-- A directory that holds anything is not taken away. -/
theorem removeDirectory_full {base : String} (hne : names ≠ []) {entry : HostEntry}
    (hfind : t.find? (base :: names) = some entry) :
    ∃ cause, t.removeDirectory now [base] = .error cause := by
  unfold HostTree.removeDirectory
  simp only [bind, Except.bind]
  cases hh : t.holder [base] with
  | error e => exact ⟨e, rfl⟩
  | ok found =>
  obtain ⟨dir, name⟩ := found
  have hplace : dir ++ [name] = [base] := append_of_holder_single hh
  have hfull : t.isEmptyAt [base] = false := by
    rw [isEmptyAt, Bool.not_eq_false', List.any_eq_true]
    refine ⟨(base :: names, entry), ?_, by simp [List.isPrefixOf, hne]⟩
    obtain ⟨front, rest, hsplit, -⟩ := List.lookup_eq_some_iff.mp hfind
    rw [hsplit]
    simp
  dsimp only
  rw [hplace, hfull]
  exact ⟨.notEmpty, by simp⟩

end HostTree

end MountSpace
