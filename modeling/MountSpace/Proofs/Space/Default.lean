import Mathlib.Data.List.Induction
import MountSpace.Proofs.Session.Ends
import MountSpace.Proofs.Space.Mounting

/-!
# The default of new clients

A client that names no backend is given the default.  As long as anything is mounted, the default is
one of the mounts, and a new client works on a store that is mounted.  This holds through every
order of calls that fail or succeed, except from where on a call takes the default out of the mounts
and leaves it the default.  There are two ways to do that: to unmount a default that cannot be
closed, and to mount a store in its place.

## Main definitions

* `Space.Serves` — the default is one of the mounts, and new clients are given it.
* `Space.Strands` — a call takes the default out of the mounts and leaves it the default.

Main statements: `Space.serves_after_iff`, `Space.serves_run_iff`.
-/

namespace MountSpace

namespace Space

variable {s : Space} {call : Call}

/-- The default is one of the mounts as long as there are any, and it is where the clients start
that name none. -/
structure Serves (s : Space) : Prop where
  /-- With anything mounted, the default is one of the mounts. -/
  mounted : s.registry.mounts ≠ [] → ∃ m ∈ s.registry.mounts, s.default = some m
  /-- With nothing mounted, there is no default. -/
  absent : s.registry.mounts = [] → s.default = none
  /-- A client that names no backend works on one that is mounted. -/
  enters : ∀ workingDirectory client s',
    (enter .missing workingDirectory).eval s = (.ok client, s') → client.home ∈ s'.registry.mounts

/-- The call takes the default out of the mounts and leaves it the default. -/
inductive Strands (s : Space) : Call → Prop
  /-- The default is unmounted and cannot be closed. -/
  | unclosed {scheme : String} {authority : Option String} {m : Mount} {e : Error}
      (hdefault : s.default = some m) (hfound : s.registry.get? scheme authority = some m)
      (hclose : m.backend.closed = .error e) : s.Strands (.unmount scheme authority)
  /-- A store is mounted in the place of the default. -/
  | replaced {o : Offer} {m old : Mount} {s' : Space} (hmount : (mount o).eval s = (.ok m, s'))
      (hdefault : s.default = some old) (hplace : m.location = old.location) : s.Strands (.mount o)

/-- Mounts are numbered in the order in which they are made. -/
def Numbered (s : Space) : Prop := ∀ m ∈ s.registry.mounts, m.serial < s.made

/-! ## The numbers of the mounts -/

theorem Numbered.after (h : s.Numbered) : (s.after call).Numbered := by
  cases call with
  | mount o =>
    rw [Space.after]
    rcases heval : (mount o).eval s with ⟨res, s'⟩
    rcases mount_cases heval with ⟨e, site, -, rfl⟩ | ⟨m, site, -, hserial, -, rfl⟩
    · exact h
    · intro x hx
      rcases Registry.mem_add.1 hx with rfl | ⟨hx, -⟩
      · exact Nat.lt_succ_of_le (Nat.le_of_eq hserial)
      · exact Nat.lt_succ_of_lt (h x hx)
  | unmount scheme authority =>
    rw [Space.after]
    rcases heval : (unmount scheme authority).eval s with ⟨res, s'⟩
    rcases unmount_cases heval with ⟨-, rfl⟩ | ⟨m, site, hfound, ⟨e, -, rfl⟩ | ⟨-, rfl⟩⟩
    · exact h
    all_goals
      intro x hx
      exact h x ((Registry.mem_remove hfound).1 hx).1

theorem Numbered.run (h : s.Numbered) (calls : List Call) : (s.run calls).Numbered := by
  induction calls using List.reverseRecOn with
  | nil => exact h
  | append_singleton calls call ih => exact run_concat s calls call ▸ ih.after

/-! ## What new clients are given -/

/-- A client that names no backend is given the default, and the mounts stay as they are. -/
theorem home_of_enter {workingDirectory : PathArg} {client : Client} {s' : Space}
    (h : (enter .missing workingDirectory).eval s = (.ok client, s')) :
    s.default = some client.home ∧ s'.registry = s.registry := by
  unfold enter at h
  rw [Action.eval_bind, Action.eval_get] at h
  dsimp only at h
  obtain ⟨home, hhome, hrest⟩ := Action.eval_ofExcept_eq_ok h
  have hdefault : s.default = some home := by
    unfold homeOf at hhome
    rw [if_neg (by simp)] at hhome
    cases hd : s.default with
    | none => rw [hd] at hhome; cases hhome
    | some m => rw [hd] at hhome; cases hhome; rfl
  by_cases hmissing : workingDirectory = .missing
  · rw [if_pos hmissing] at hrest
    cases hrest
    exact ⟨hdefault, rfl⟩
  · rw [if_neg hmissing] at hrest
    obtain ⟨directory, u, hchange, hreturn⟩ := Action.eval_bind_eq_ok hrest
    have hregistry : u.registry = s.registry := by
      rw [work, Action.eval_ofFun] at hchange
      exact congrArg (fun end_ => end_.2.registry) hchange.symm
    cases hreturn
    exact ⟨hdefault, hregistry⟩

/-- A space with a default serves when the default is one of the mounts. -/
theorem serves_of_default {d : Mount} (hd : s.default = some d) :
    s.Serves ↔ d ∈ s.registry.mounts := by
  constructor
  · intro h
    by_cases hempty : s.registry.mounts = []
    · rw [h.absent hempty] at hd
      cases hd
    · obtain ⟨m, hm, hdefault⟩ := h.mounted hempty
      rw [hd] at hdefault
      cases hdefault
      exact hm
  · intro hmem
    refine ⟨fun _ => ⟨d, hmem, hd⟩, fun hempty => ?_, fun wd client s' henter => ?_⟩
    · rw [hempty] at hmem
      cases hmem
    · obtain ⟨hdefault, hregistry⟩ := home_of_enter henter
      rw [hd] at hdefault
      cases hdefault
      rw [hregistry]
      exact hmem

/-- A space without a default serves when nothing is mounted. -/
theorem serves_of_no_default (hd : s.default = none) : s.Serves ↔ s.registry.mounts = [] := by
  constructor
  · intro h
    by_contra hne
    obtain ⟨m, -, hm⟩ := h.mounted hne
    rw [hd] at hm
    cases hm
  · intro hempty
    refine ⟨fun hne => absurd hempty hne, fun _ => hd, fun wd client s' henter => ?_⟩
    have hdefault := (home_of_enter henter).1
    rw [hd] at hdefault
    cases hdefault

/-- Spaces with the same mounts and the same default serve alike. -/
theorem Serves.of_eq {s' : Space} (h : s.Serves) (hregistry : s'.registry = s.registry)
    (hdefault : s'.default = s.default) : s'.Serves := by
  cases hd : s.default with
  | none =>
    rw [serves_of_no_default (hdefault.trans hd), hregistry]
    exact (serves_of_no_default hd).1 h
  | some d =>
    rw [serves_of_default (hdefault.trans hd), hregistry]
    exact (serves_of_default hd).1 h

/-- A space whose default is the first mount by label serves. -/
theorem serves_of_head {r : Registry} (hregistry : s.registry = r)
    (hdefault : s.default = r.list.head?) : s.Serves := by
  cases hd : s.default with
  | none =>
    rw [serves_of_no_default hd, hregistry]
    have hnone : r.list = [] := List.head?_eq_none_iff.1 (hdefault.symm.trans hd)
    have hlength : r.list.length = r.mounts.length := List.length_mergeSort _
    rw [hnone] at hlength
    exact List.length_eq_zero_iff.1 hlength.symm
  | some d =>
    rw [serves_of_default hd, hregistry]
    exact List.mem_mergeSort.1 (List.mem_of_mem_head? (hdefault.symm.trans hd))

/-! ## One call -/

theorem serves_after_mount_iff (h : s.Serves) (hn : s.Numbered) {o : Offer} :
    (s.after (.mount o)).Serves ↔ ¬s.Strands (.mount o) := by
  rw [Space.after]
  rcases heval : (mount o).eval s with ⟨res, s'⟩
  rcases mount_cases heval with ⟨e, site, rfl, rfl⟩ | ⟨m, site, rfl, hserial, -, rfl⟩
  · refine iff_of_true (h.of_eq rfl rfl) fun hs => ?_
    obtain - | ⟨hmount, -, -⟩ := hs
    rw [heval] at hmount
    cases hmount
  cases hd : s.default with
  | none =>
    refine iff_of_true ?_ fun hs => ?_
    · exact (serves_of_default rfl).2 (Registry.mem_add.2 (.inl rfl))
    · obtain - | ⟨-, hdefault, -⟩ := hs
      rw [hd] at hdefault
      cases hdefault
  | some old =>
    have hold : old ∈ s.registry.mounts := (serves_of_default hd).1 h
    -- the new mount has a number of its own, so it is not the old default
    have hne : old ≠ m := by
      rintro rfl
      exact Nat.lt_irrefl _ (hserial ▸ hn old hold)
    rw [serves_of_default rfl, Registry.mem_add]
    constructor
    · rintro (heq | ⟨-, hother⟩) hs
      · exact hne heq
      · obtain - | ⟨hmount, hdefault, hplace⟩ := hs
        rw [heval] at hmount
        cases hmount
        rw [hd] at hdefault
        cases hdefault
        exact hother hplace.symm
    · intro hs
      exact .inr ⟨hold, fun hplace => hs (.replaced heval hd hplace.symm)⟩

theorem serves_after_unmount_iff (h : s.Serves) {scheme : String} {authority : Option String} :
    (s.after (.unmount scheme authority)).Serves ↔ ¬s.Strands (.unmount scheme authority) := by
  rw [Space.after]
  rcases heval : (unmount scheme authority).eval s with ⟨res, s'⟩
  rcases unmount_cases heval with
    ⟨hfree, rfl⟩ | ⟨m, site, hfound, hrest⟩
  · refine iff_of_true h fun hs => ?_
    obtain ⟨-, hfound, -⟩ | - := hs
    rw [hfree] at hfound
    cases hfound
  have hm : m ∈ s.registry.mounts := (Registry.at?_eq_some_iff.1 hfound).1
  obtain ⟨d, hmem, hd⟩ := h.mounted (List.ne_nil_of_mem hm)
  -- a default that stays the default is among the mounts unless it is the one taken out
  let without : Space := { s with registry := s.registry.remove scheme authority }
  have hstays : without.Serves ↔ d ≠ m := by
    have hdefault : without.default = some d := hd
    exact (serves_of_default hdefault).trans
      ((Registry.mem_remove hfound).trans (and_iff_right hmem))
  rcases hrest with ⟨e, hclose, rfl⟩ | ⟨⟨u, hclose⟩, rfl⟩
  · refine hstays.trans (not_congr ⟨?_, fun hs => ?_⟩)
    · rintro rfl
      exact .unclosed hd hfound hclose
    · obtain ⟨hdefault, hfound', -⟩ | - := hs
      exact Option.some.inj (hd.symm.trans (hdefault.trans (hfound'.symm.trans hfound)))
  · refine iff_of_true ?_ fun hs => ?_
    · by_cases hnumber : s.default.map Mount.serial = some m.serial
      · exact serves_of_head rfl (if_pos hnumber)
      · have hne : d ≠ m := by
          rintro rfl
          exact hnumber (by rw [hd]; rfl)
        exact (hstays.2 hne).of_eq rfl (if_neg hnumber)
    · obtain ⟨-, hfound', hfault⟩ | - := hs
      rw [hfound] at hfound'
      cases hfound'
      rw [hclose] at hfault
      cases hfault

/-- **A call keeps the default among the mounts** exactly when it does not strand it. -/
theorem serves_after_iff (h : s.Serves) (hn : s.Numbered) :
    (s.after call).Serves ↔ ¬s.Strands call := by
  cases call with
  | mount o => exact serves_after_mount_iff h hn
  | unmount scheme authority => exact serves_after_unmount_iff h

/-! ## Any number of calls -/

theorem numbered_fresh (maxLinks : Nat) (site : Site) : ({ maxLinks, site } : Space).Numbered := by
  intro m hm
  cases hm

theorem serves_fresh (maxLinks : Nat) (site : Site) : ({ maxLinks, site } : Space).Serves :=
  (serves_of_no_default rfl).2 rfl

/-- **New clients always work on a mounted store** exactly as long as no call strands the
default. -/
theorem serves_run_iff (maxLinks : Nat) (site : Site) (calls : List Call) :
    (∀ done, done <+: calls → (({ maxLinks, site } : Space).run done).Serves) ↔
      ∀ done call, done ++ [call] <+: calls →
        ¬(({ maxLinks, site } : Space).run done).Strands call := by
  have hnumbered := (numbered_fresh maxLinks site).run
  constructor
  · intro h done call hpre
    have hbefore := h done ((List.prefix_append _ _).trans hpre)
    have hafter := h _ hpre
    rw [run_concat] at hafter
    exact (serves_after_iff hbefore (hnumbered done)).1 hafter
  · intro hno done hpre
    induction done using List.reverseRecOn with
    | nil => exact serves_fresh maxLinks site
    | append_singleton done call ih =>
      rw [run_concat]
      exact (serves_after_iff (ih ((List.prefix_append _ _).trans hpre)) (hnumbered done)).2
        (hno done call hpre)

/-- A table whose backend cannot be closed is mounted, then a directory of the host, and the table
is unmounted: it stays the default, and the next client works on it. -/
theorem not_serves_unclosed :
    let calls : List Call :=
      [.mount { database := some "db", authority := some "nn", closeFault := some "close failed" },
        .mount { backend := some (Mount.ofHost "h").backend }, .unmount "lfs" (some "nn")]
    let s := ({ site := .emptyHost "h" } : Space).run calls
    s.registry.mounts.map Mount.label = ["file:///"] ∧
      ((enter .missing .missing).eval s).1.toOption.map (fun client => client.home.label) =
        some "lfs://nn/" ∧ ¬s.Serves := by
  intro calls s
  have hmounts : s.registry.mounts.map Mount.label = ["file:///"] := by decide +kernel
  have hdefault : s.default.map Mount.label = some "lfs://nn/" := by decide +kernel
  refine ⟨hmounts, by decide +kernel, fun h => ?_⟩
  obtain ⟨m, hm, hd⟩ := h.mounted (by rintro hempty; rw [hempty] at hmounts; cases hmounts)
  have hlabel : m.label ∈ s.registry.mounts.map Mount.label := List.mem_map_of_mem hm
  rw [hd] at hdefault
  rw [hmounts, Option.some.inj hdefault] at hlabel
  exact absurd hlabel (by decide)

end Space

end MountSpace
