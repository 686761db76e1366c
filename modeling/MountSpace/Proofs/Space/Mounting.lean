import MountSpace.Proofs.Outcome
import MountSpace.Space

/-!
# Mounting and unmounting

The mounts of a space change by two calls.  Each of them gives up and leaves the mounts as they are,
or puts one mount in or takes one out; a backend that fails to close is taken out all the same.

## Main definitions

* `Space.Call` — a store is mounted or unmounted.
* `Space.after`, `Space.run` — the space after one call, and after one call after the other.

Main statements: `Space.mount_cases`, `Space.unmount_cases`.
-/

namespace MountSpace

namespace Registry

/-- Of the mounts that were there, an added one leaves those at other addresses. -/
theorem mem_add {r : Registry} {m x : Mount} :
    x ∈ (r.add m).mounts ↔ x = m ∨ x ∈ r.mounts ∧ x.location ≠ m.location := by
  unfold add
  split
  · rename_i htaken
    simp only [List.mem_map]
    constructor
    · rintro ⟨old, hold, rfl⟩
      by_cases hplace : old.location = m.location
      · exact .inl (if_pos hplace)
      · rw [if_neg hplace]
        exact .inr ⟨hold, hplace⟩
    · rintro (rfl | ⟨hx, hplace⟩)
      · obtain ⟨old, hold, hplace⟩ := List.mem_map.1 htaken
        exact ⟨old, hold, if_pos hplace⟩
      · exact ⟨x, hx, if_neg hplace⟩
  · rename_i hfree
    simp only [List.mem_append, List.mem_singleton]
    constructor
    · rintro (hx | rfl)
      · exact .inr ⟨hx, fun hplace => hfree (List.mem_map.2 ⟨x, hx, hplace⟩)⟩
      · exact .inl rfl
    · rintro (rfl | ⟨hx, -⟩)
      · exact .inr rfl
      · exact .inl hx

theorem mem_removeAt {r : Registry} {l : Location} {x : Mount} :
    x ∈ (r.removeAt l).mounts ↔ x ∈ r.mounts ∧ x.location ≠ l := by
  simp [removeAt]

/-- The mount that a look-up finds is taken out, and no other one. -/
theorem mem_remove {r : Registry} {scheme : String} {authority : Option String} {m x : Mount}
    (h : r.get? scheme authority = some m) :
    x ∈ (r.remove scheme authority).mounts ↔ x ∈ r.mounts ∧ x ≠ m := by
  rw [remove, mem_removeAt]
  refine and_congr_right fun hx => ?_
  constructor
  · rintro hplace rfl
    exact hplace (location_of_at? h)
  · intro hne hplace
    have hfound : r.at? (address scheme authority) = some x := at?_eq_some_iff.2 ⟨hx, hplace⟩
    have hsame : some x = some m := hfound.symm.trans h
    exact hne (Option.some.inj hsame)

end Registry

namespace Space

/-- What changes the mounts. -/
inductive Call
  /-- A store is mounted. -/
  | mount (o : Offer)
  /-- The store of a scheme and an authority is unmounted. -/
  | unmount (scheme : String) (authority : Option String)

/-- The space after a call, whether or not it failed. -/
def after (s : Space) : Call → Space
  | .mount o => ((mount o).eval s).2
  | .unmount scheme authority => ((unmount scheme authority).eval s).2

/-- The space after calls, made one after the other. -/
def run (s : Space) (calls : List Call) : Space := calls.foldl after s

@[simp] theorem run_nil (s : Space) : s.run [] = s := rfl

theorem run_concat (s : Space) (calls : List Call) (call : Call) :
    s.run (calls ++ [call]) = (s.run calls).after call := by
  simp [run]

variable {s s' : Space} {o : Offer} {m : Mount} {backend : Backend} {database : Option String}
variable {makes : Bool}

/-! ## Mounting -/

/-- Making a table changes the site and nothing else. -/
theorem eval_makeTable (backend : Backend) (database : String) (s : Space) :
    ∃ site, (makeTable backend database).eval s = (.ok (), { s with site }) := by
  unfold makeTable
  cases backend.storage with
  | disk host => exact ⟨s.site, rfl⟩
  | table name =>
    dsimp only
    rw [Action.eval_modify]
    by_cases hthere : (s.site.table ⟨database, name⟩).rows?.isSome
    · exact ⟨s.site, by rw [if_pos hthere]⟩
    · exact ⟨_, by rw [if_neg hthere]⟩

/-- What comes after the table is seen to starts from a space in which only the site may differ. -/
theorem eval_prepare {α : Type} (backend : Backend) (database : Option String) (makes : Bool)
    (rest : Unit → Change α) (s : Space) :
    ∃ site, (if makes = true then database.forM (makeTable backend) >>= rest else rest ()).eval s =
      (rest ()).eval { s with site } := by
  cases makes with
  | false => exact ⟨s.site, rfl⟩
  | true =>
    cases database with
    | none => exact ⟨s.site, rfl⟩
    | some database =>
      obtain ⟨site, hmake⟩ := eval_makeTable backend database s
      have hfirst : ((some database).forM (makeTable backend) : Change Unit).eval s =
          (.ok (), { s with site }) := hmake
      refine ⟨site, ?_⟩
      rw [if_pos rfl, Action.eval_bind, hfirst]

/-- How mounting goes on once it is known what is to be mounted: a taken address is refused, and so
is a backend that cannot be opened. -/
theorem eval_mount (hsettle : o.settle = .ok (backend, database, makes)) (s : Space) :
    ∃ before after, (mount o).eval s =
      if (s.registry.get? backend.capability.scheme backend.capability.authority).isSome then
        (.error (.alreadyMounted (Mount.make s.made backend database o.label).label),
          { s with site := before })
      else match backend.opened with
        | .error e => (.error e, { s with site := before })
        | .ok _ => (.ok (Mount.make s.made backend database o.label),
          { s with
            registry := s.registry.add (Mount.make s.made backend database o.label)
            default := s.default <|> some (Mount.make s.made backend database o.label)
            made := s.made + 1, site := after }) := by
  unfold mount
  rw [Action.eval_bind, hsettle, Action.eval_ofExcept]
  dsimp only
  obtain ⟨site, hprepare⟩ := eval_prepare backend database makes _ s
  rw [hprepare]
  refine ⟨site, site.report (.mounted (Mount.make s.made backend database o.label).label), ?_⟩
  rw [Action.eval_bind, Action.eval_get]
  dsimp only
  by_cases htaken :
      (s.registry.get? backend.capability.scheme backend.capability.authority).isSome = true
  · rw [if_pos htaken]
    have htaken' : (s.registry.get? (Mount.make s.made backend database o.label).capability.scheme
        (Mount.make s.made backend database o.label).capability.authority).isSome = true := htaken
    rw [if_pos htaken']
    rfl
  · rw [if_neg htaken]
    have htaken' : ¬(s.registry.get? (Mount.make s.made backend database o.label).capability.scheme
        (Mount.make s.made backend database o.label).capability.authority).isSome = true := htaken
    rw [if_neg htaken', Action.eval_bind, Action.eval_ofExcept]
    cases backend.opened with
    | error e => rfl
    | ok u => rfl

/-- A call gives up, or puts the mount that it returns at an address that was free as far as the
look-up goes. -/
theorem mount_cases {res : Except Error Mount} (h : (mount o).eval s = (res, s')) :
    (∃ e site, res = .error e ∧ s' = { s with site }) ∨
      ∃ m site, res = .ok m ∧ m.serial = s.made ∧
        s.registry.get? m.capability.scheme m.capability.authority = none ∧
        s' = { s with registry := s.registry.add m, default := s.default <|> some m,
                      made := s.made + 1, site } := by
  cases hsettle : o.settle with
  | error e =>
    have hfails : (mount o).eval s = (.error e, s) := by
      unfold mount
      rw [Action.eval_bind, hsettle, Action.eval_ofExcept]
    rw [hfails] at h
    cases h
    exact .inl ⟨e, s.site, rfl, rfl⟩
  | ok found =>
    obtain ⟨backend, database, makes⟩ := found
    obtain ⟨before, after, heval⟩ := eval_mount hsettle s
    rw [heval] at h
    by_cases htaken :
        (s.registry.get? backend.capability.scheme backend.capability.authority).isSome = true
    · rw [if_pos htaken] at h
      cases h
      exact .inl ⟨_, before, rfl, rfl⟩
    · rw [if_neg htaken] at h
      cases hopen : backend.opened with
      | error e =>
        rw [hopen] at h
        cases h
        exact .inl ⟨e, before, rfl, rfl⟩
      | ok u =>
        rw [hopen] at h
        cases h
        have hfree :
            s.registry.get? backend.capability.scheme backend.capability.authority = none := by
          simpa using htaken
        exact .inr ⟨_, after, rfl, rfl, hfree, rfl⟩

/-! ## Unmounting -/

/-- A call finds nothing, or takes the mount out that it finds.  The default moves on to the first
mount by label only after the backend has closed. -/
theorem unmount_cases {scheme : String} {authority : Option String} {res : Except Error Unit}
    (h : (unmount scheme authority).eval s = (res, s')) :
    (s.registry.get? scheme authority = none ∧ s' = s) ∨
      ∃ m site, s.registry.get? scheme authority = some m ∧
        ((∃ e, m.backend.closed = .error e ∧
            s' = { s with registry := s.registry.remove scheme authority }) ∨
          (∃ u, m.backend.closed = .ok u) ∧
            s' = { s with
              registry := s.registry.remove scheme authority
              default := if s.default.map Mount.serial = some m.serial then
                  (s.registry.remove scheme authority).list.head?
                else s.default
              site }) := by
  unfold unmount at h
  rw [Action.eval_bind, Action.eval_get] at h
  dsimp only at h
  cases hfound : s.registry.get? scheme authority with
  | none =>
    rw [hfound] at h
    cases h
    exact .inl ⟨rfl, rfl⟩
  | some m =>
    rw [hfound] at h
    dsimp only at h
    rw [Action.eval_bind, Action.eval_modify] at h
    dsimp only at h
    rw [Action.eval_bind, Action.eval_ofExcept] at h
    cases hclose : m.backend.closed with
    | error e =>
      rw [hclose] at h
      cases h
      exact .inr ⟨m, s.site, rfl, .inl ⟨e, hclose, rfl⟩⟩
    | ok u =>
      rw [hclose] at h
      dsimp only at h
      rw [Action.eval_bind, Action.eval_modify] at h
      refine .inr ⟨m, s.site.report (.unmounted m.label), rfl, .inr ⟨⟨u, hclose⟩, ?_⟩⟩
      by_cases hdefault : s.default.map Mount.serial = some m.serial
      · simp only [if_pos hdefault] at h ⊢
        cases h
        rfl
      · simp only [if_neg hdefault] at h ⊢
        cases h
        rfl

end Space

end MountSpace
