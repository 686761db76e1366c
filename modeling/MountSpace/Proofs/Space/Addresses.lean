import MountSpace.Proofs.Path.Lasting
import MountSpace.Proofs.Session.Ends
import MountSpace.Proofs.Space.Mounting

/-!
# Mounts at their addresses

A mount is to be found under its own scheme and authority and at the address of its root, to keep
every other store from being mounted there, and to be unmounted by its scheme and authority and not
along with another one.  All of this holds, from the call that mounts it to the one that unmounts
it, of the mounts whose root has an address that can be read.

Schemes are looked up in lower case and stored as they are given.  A mount whose scheme has a
capital is not found, and the next one of the same scheme and authority takes its place.

## Main definitions

* `Space.Holds` — what is to be expected of a mount that was not unmounted.
* `Space.TakesOut`, `Space.Spares` — a call unmounts a mount; no call of a list does.

Main statement: `Space.holds_run_iff`.
-/

namespace MountSpace

/-- The scheme of an address that can be read is looked up as it is. -/
theorem Registry.address_of_plain {c : Capability} (h : c.location.Plain) :
    address c.scheme c.authority = c.location := by
  have hascii : ∀ d ∈ c.scheme.toList, d.toNat < 128 := fun d hd =>
    Path.ascii_of_isSchemeChar ((h.scheme c.scheme rfl).2 d hd).1
  have hlower : Text.lowerCase c.scheme = c.scheme := by
    rw [Text.lowerCase, Text.lowerAfter_ascii hascii]
    exact Path.lower_scheme h rfl
  rw [address, hlower]
  rfl

/-- A mount owns the paths of its location. -/
theorem Registry.lookup_of_mem {r : Registry} {m : Mount} (hm : m ∈ r.mounts) {p : Path}
    (hp : p.location = m.location) (named : Path) : r.lookup p named = .ok m := by
  have hat : r.at? ⟨some m.capability.scheme, m.capability.authority⟩ = some m :=
    at?_eq_some_iff.2 ⟨hm, rfl⟩
  have hplace : p.location = ⟨some m.capability.scheme, m.capability.authority⟩ := hp
  rw [lookup, hplace]
  cases hauthority : m.capability.authority with
  | none =>
    rw [hauthority] at hat
    dsimp only
    rw [hat]
  | some authority =>
    rw [hauthority] at hat
    dsimp only
    rw [hat]

namespace Space

variable {s : Space} {o : Offer} {m : Mount} {call : Call}

/-- What is to be expected of a mount that was not unmounted. -/
structure Holds (s : Space) (m : Mount) : Prop where
  /-- It is found under its scheme and authority. -/
  found : s.registry.get? m.capability.scheme m.capability.authority = some m
  /-- There is a mount of its scheme and authority. -/
  has : s.registry.has m.capability.scheme m.capability.authority = true
  /-- It owns the path that the address of its root is read as. -/
  reached : ∃ p, Path.read m.capability.rootPath.text = .ok p ∧ s.registry.lookup p p = .ok m
  /-- Another store of its scheme and authority is refused, and the mounts stay as they are. -/
  refuses : ∀ o backend database makes, o.settle = .ok (backend, database, makes) →
    backend.capability.location = m.capability.location →
    (∃ e, ((mount o).eval s).1 = .error e ∧ e.kind = .argument) ∧
      (s.after (.mount o)).registry = s.registry
  /-- Unmounting its scheme and authority takes it out, and nothing else. -/
  removes : ∀ x,
    x ∈ (s.after (.unmount m.capability.scheme m.capability.authority)).registry.mounts ↔
      x ∈ s.registry.mounts ∧ x ≠ m

/-- The call unmounts the mount. -/
def TakesOut (s : Space) (m : Mount) : Call → Prop
  | .mount _ => False
  | .unmount scheme authority => s.registry.get? scheme authority = some m

instance (s : Space) (m : Mount) : (call : Call) → Decidable (s.TakesOut m call)
  | .mount _ => inferInstanceAs (Decidable False)
  | .unmount _ _ => inferInstanceAs (Decidable (_ = _))

/-- None of the calls, made one after the other, unmounts the mount. -/
def Spares (m : Mount) : Space → List Call → Prop
  | _, [] => True
  | s, call :: rest => ¬s.TakesOut m call ∧ Spares m (s.after call) rest

/-! ## Mounts with an address that can be read -/

/-- The address of a root that is read again is one that lasts. -/
theorem lasting_of_reached {r : Registry} {p : Path}
    (hread : Path.read m.capability.rootPath.text = .ok p) (hlookup : r.lookup p p = .ok m) :
    m.capability.rootPath.Lasting := by
  have hparse : Path.parse m.capability.rootPath.text = .ok p := mapError_eq_ok.1 hread
  have hplace : p.location = m.capability.location := (Registry.location_of_lookup hlookup).symm
  have hplain : m.capability.location.Plain := hplace ▸ Path.plain_of_parse hparse
  have hfault := (Path.parse_eq_ok_iff.1 hparse).1
  exact {
    location := hplain
    length := (Path.textFault?_eq_none_iff.1 hfault).2
    last := fun n hn => by cases hn
    first := fun hrel => by cases hrel }

/-- A mount with such an address is kept by every call that does not unmount it. -/
theorem mem_after (hplain : m.capability.location.Plain) (hm : m ∈ s.registry.mounts)
    (hspares : ¬s.TakesOut m call) : m ∈ (s.after call).registry.mounts := by
  cases call with
  | mount o =>
    rw [Space.after]
    rcases heval : (mount o).eval s with ⟨res, s'⟩
    rcases mount_cases heval with ⟨e, site, -, rfl⟩ | ⟨new, site, -, -, hfree, rfl⟩
    · exact hm
    · refine Registry.mem_add.2 (.inr ⟨hm, fun hplace => ?_⟩)
      have hplain' : new.capability.location.Plain := by
        have hplace' : m.capability.location = new.capability.location := hplace
        exact hplace' ▸ hplain
      rw [Registry.get?, Registry.address_of_plain hplain'] at hfree
      have hfound : s.registry.at? new.location = some m := Registry.at?_eq_some_iff.2 ⟨hm, hplace⟩
      exact absurd (hfree.symm.trans hfound) (by simp)
  | unmount scheme authority =>
    rw [Space.after]
    rcases heval : (unmount scheme authority).eval s with ⟨res, s'⟩
    rcases unmount_cases heval with
      ⟨-, rfl⟩ | ⟨out, site, hfound, ⟨e, -, rfl⟩ | ⟨-, rfl⟩⟩
    · exact hm
    all_goals
      refine (Registry.mem_remove hfound).2 ⟨hm, ?_⟩
      rintro rfl
      exact hspares hfound

theorem mem_run (hplain : m.capability.location.Plain) (hm : m ∈ s.registry.mounts)
    {calls : List Call} (hspares : Spares m s calls) : m ∈ (s.run calls).registry.mounts := by
  induction calls generalizing s with
  | nil => exact hm
  | cons call calls ih => exact ih (mem_after hplain hm hspares.1) hspares.2

/-- What is asked for is refused when its address is found to be taken. -/
theorem refused_of_taken {backend : Backend} {database : Option String} {makes : Bool}
    (hsettle : o.settle = .ok (backend, database, makes))
    (htaken : s.registry.get? backend.capability.scheme backend.capability.authority = some m) :
    (∃ e, ((mount o).eval s).1 = .error e ∧ e.kind = .argument) ∧
      (s.after (.mount o)).registry = s.registry := by
  obtain ⟨before, after, heval⟩ := eval_mount hsettle s
  rw [if_pos (by rw [htaken]; rfl)] at heval
  rw [Space.after, heval]
  exact ⟨⟨_, rfl, rfl⟩, rfl⟩

/-- All is as expected of a mount that is there and has an address that can be read. -/
theorem holds_of_mem (hlasting : m.capability.rootPath.Lasting) (hm : m ∈ s.registry.mounts) :
    s.Holds m := by
  have hplain : m.capability.location.Plain := hlasting.location
  have hat : s.registry.at? m.capability.location = some m :=
    Registry.at?_eq_some_iff.2 ⟨hm, rfl⟩
  have hfound : s.registry.get? m.capability.scheme m.capability.authority = some m := by
    rw [Registry.get?, Registry.address_of_plain hplain]
    exact hat
  refine ⟨hfound, by rw [Registry.has, hfound]; rfl, ⟨m.capability.rootPath, ?_, ?_⟩, ?_, ?_⟩
  · refine (Path.read_text_iff (Capability.rootPath_complete _).normal ?_).2 hlasting
    intro n hn
    cases hn
  · exact Registry.lookup_of_mem hm rfl _
  · intro o backend database makes hsettle hplace
    refine refused_of_taken hsettle (m := m) ?_
    rw [Registry.get?, Registry.address_of_plain (hplace ▸ hplain), hplace]
    exact hat
  · intro x
    rw [Space.after]
    rcases heval : (unmount m.capability.scheme m.capability.authority).eval s with ⟨res, s'⟩
    rcases unmount_cases heval with ⟨hnone, -⟩ | ⟨out, site, hout, ⟨e, -, rfl⟩ | ⟨-, rfl⟩⟩
    · rw [hfound] at hnone
      cases hnone
    all_goals
      rw [hfound] at hout
      cases hout
      exact Registry.mem_remove hfound

/-! ## From mounting to unmounting -/

/-- **A mount holds its address** as long as it is not unmounted exactly when its root has an
address that can be read. -/
theorem holds_run_iff {s s' : Space} {o : Offer} {m : Mount} {calls : List Call}
    (hmount : (mount o).eval s = (.ok m, s')) (hspares : Spares m s' calls) :
    (s'.run calls).Holds m ↔ m.capability.rootPath.Lasting := by
  constructor
  · intro h
    obtain ⟨p, hread, hlookup⟩ := h.reached
    exact lasting_of_reached hread hlookup
  · intro hlasting
    have hm : m ∈ s'.registry.mounts := by
      rcases mount_cases hmount with ⟨e, site, hfail, -⟩ | ⟨new, site, hnew, -, -, rfl⟩
      · cases hfail
      · cases hnew
        exact Registry.mem_add.2 (.inl rfl)
    exact holds_of_mem hlasting (mem_run hlasting.location hm hspares)

/-- An offer of a table of the scheme, under one authority. -/
def tableOf (scheme : String) (label : String := "") : Offer :=
  { database := some "db", authority := some "nn", scheme, label }

/-- A table keeps its address while a directory of the host comes and goes. -/
theorem holds_run_iff_lowerCase :
    let s : Space := { site := .emptyHost "h" }
    let m : Mount :=
      ⟨0, ⟨.table "", ⟨"lfs", some "nn", true, true, true, fun _ => rfl⟩, none, none⟩,
        some "db", "lfs://nn/"⟩
    let s' := s.after (.mount (tableOf "lfs"))
    let calls : List Call :=
      [.mount { backend := some (Mount.ofHost "h").backend }, .unmount "file" none]
    (mount (tableOf "lfs")).eval s = (.ok m, s') ∧ Spares m s' calls ∧ (s'.run calls).Holds m := by
  intro s m s' calls
  have hmount : (mount (tableOf "lfs")).eval s = (.ok m, s') := Prod.ext (by decide +kernel) rfl
  have hspares : Spares m s' calls := ⟨by decide +kernel, by decide +kernel, trivial⟩
  have hread : Path.read m.capability.rootPath.text = .ok m.capability.rootPath := by
    decide +kernel
  have hlasting : m.capability.rootPath.Lasting :=
    (Path.read_text_iff (Capability.rootPath_complete _).normal fun n hn => by cases hn).1 hread
  exact ⟨hmount, hspares, (holds_run_iff hmount hspares).2 hlasting⟩

/-- The scheme of the first table has a capital.  It is not found, and the second table takes its
place. -/
theorem not_holds_capital :
    let s := ({ site := .emptyHost "h" } : Space).run [.mount (tableOf "LFS")]
    let t := s.run [.mount (tableOf "LFS" "again")]
    s.registry.list.map Mount.label = ["LFS://nn/"] ∧
      t.registry.list.map Mount.label = ["again"] ∧ ∀ m ∈ s.registry.mounts, ¬s.Holds m := by
  intro s t
  refine ⟨by decide +kernel, by decide +kernel, fun m hm h => ?_⟩
  have hunfound : ∀ m ∈ s.registry.mounts,
      s.registry.has m.capability.scheme m.capability.authority = false := by decide +kernel
  exact absurd h.has (by rw [hunfound m hm]; decide)

end Space

end MountSpace
