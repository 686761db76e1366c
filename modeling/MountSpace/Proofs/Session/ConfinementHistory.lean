import Mathlib.Data.Fintype.EquivFin
import MountSpace.Proofs.Session.Confinement
import MountSpace.Proofs.Session.ExactHistory
import MountSpace.Proofs.Session.Moves
import MountSpace.Proofs.Session.RootHistory

/-!
# Confinement in histories

A disk follows no link of the host for a client.  However long a history is, an operation that names
nothing with a blank at its end is handed on to disks along directories only, reads and dates no
link, and is not refused for one.

Main statement: `Scene.confined_run`.
-/

namespace MountSpace

open MountSpace.Path

/-- There are always tables that nobody has made. -/
theorem Site.exists_table_nil (site : Site) : ∃ T, (site.table T).rows = [] := by
  obtain ⟨name, hfresh⟩ :=
    Infinite.exists_notMem_finset (site.tables.map fun entry => entry.1.table).toFinset
  refine ⟨⟨"", name⟩, ?_⟩
  have hnone : site.tables.lookup ⟨"", name⟩ = none := by
    rw [List.lookup_eq_none_iff]
    intro entry hentry
    rw [bne_iff_ne]
    rintro heq
    refine hfresh (List.mem_toFinset.mpr (List.mem_map.mpr ⟨entry, hentry, ?_⟩))
    rw [← heq]
  rw [Site.table, hnone]
  rfl

namespace Scene

variable {P : String → Prop} {T : TableName} {scene : Scene} {deed : Deed} {host : String}

/-- A name that is kept as it is misspells no root. -/
theorem Tidy.not_takesMisspelled (h : scene.Tidy P T) (hP : ∀ n, P n → ¬EndsBlank n)
    (ho : scene.Orderly) (hdeed : deed.Among P scene.registry) : ¬scene.TakesMisspelled deed := by
  rintro ⟨client, q, r, rfl, htakes, ⟨p, hread, hroot⟩, hspelled, -⟩
  have htidies : (scene.session client).Tidies scene.site P false r := by
    cases htakes with
    | @delete raw recursive path r status hpath hr hstatus =>
      exact hr.tidies (ho.proper client) (h.standpoint client)
        (hdeed.paths raw (by simp [Request.paths])) hpath h.site
    | @move raw dst overwrite path r status hpath hr hstatus =>
      exact hr.tidies (ho.proper client) (h.standpoint client)
        (hdeed.paths raw (by simp [Request.paths])) hpath h.site
  have hplain := htidies.plain hP
  rw [htidies.ending.localText_eq] at hread
  obtain rfl := eq_of_read_rootText hplain.ordinary hread
  rw [hplain.settle_eq] at hroot
  have hnil : r.path.segments = [] := by simpa [Path.isRoot] using hroot
  rw [htidies.ending.path_eq, hnil] at hspelled
  cases hspelled

/-- Homes last as long as names have no blanks at their ends. -/
theorem homed_run (ho : scene.Opening) (h : scene.Tidy P T) (hP : ∀ n, P n → ¬EndsBlank n)
    {deeds : List Deed} (hdeeds : ∀ deed ∈ deeds, deed.Among P scene.registry)
    (hhome : (scene.site.disk host).Homed) : ((scene.run deeds).site.disk host).Homed := by
  induction deeds using List.reverseRecOn with
  | nil => exact hhome
  | append_singleton deeds deed ih =>
    have hbefore : ∀ d ∈ deeds, d.Among P scene.registry := fun d hd => hdeeds d (by simp [hd])
    have hdeed : deed.Among P (scene.run deeds).registry := by
      rw [registry_run]
      exact hdeeds deed (by simp)
    have horderly := ho.orderly.run deeds
    rw [run_concat]
    exact horderly.homesStay_after
      ((h.run hP ho.orderly hbefore).not_takesMisspelled hP horderly hdeed) host (ih hbefore)

/-- Every client keeps its footing. -/
theorem footing_run (ho : scene.Opening)
    (hroots : ∀ m ∈ scene.registry.mounts, ∀ host, m.backend.storage = .disk host →
      m.Rooted scene.site)
    (hg : ∀ host, (scene.site.disk host).Grounded)
    (hlinks : scene.site.LinksAmong (fun n => ¬EndsBlank n) scene.registry) {deeds : List Deed}
    (hdeeds : ∀ deed ∈ deeds, deed.Among (fun n => ¬EndsBlank n) scene.registry) (client : ℕ) :
    ((scene.run deeds).session client).Footing (scene.run deeds).site := by
  obtain ⟨T, hT⟩ := scene.site.exists_table_nil
  have hstart := ho.tidy ⟨hlinks, Table.exact_of_nil hT⟩
  have htidy := hstart.run (fun _ hn => hn) ho.orderly hdeeds
  refine ⟨(ho.orderly.run deeds).proper client, htidy.standpoint client, htidy.site.toLinksAmong,
    fun m hm host hs => ?_, fun host => scene.grounded_run deeds (hg host)⟩
  have hmount : m ∈ scene.registry.mounts := by
    rw [← registry_run scene deeds]
    exact hm
  exact homed_run ho hstart (fun _ hn => hn) hdeeds ((hroots m hmount host hs).homed hs)

/-- **Disks follow no link of the host for a client.**  After any history that begins with disks
whose roots are directories and puts no blank at the end of a name in a path or in the target of a
link, and for any further operation that resolves such paths: whenever it calls on a disk, the path
it hands over leads there over directories, as far as anything stands on the way, and nothing that
the host would follow stands at its end; and the operation is not refused for a link. -/
theorem confined_run (scene : Scene) (ho : scene.Opening)
    (hroots : ∀ m ∈ scene.registry.mounts, ∀ host, m.backend.storage = .disk host →
      m.Rooted scene.site)
    (hg : ∀ host, (scene.site.disk host).Grounded)
    (hlinks : scene.site.LinksAmong (fun n => ¬EndsBlank n) scene.registry) (deeds : List Deed)
    (hdeeds : ∀ deed ∈ deeds, deed.Among (fun n => ¬EndsBlank n) scene.registry)
    (client : ℕ) (o : Operation) (hop : o.Among fun n => ¬EndsBlank n) :
    let now := scene.run deeds
    let s := now.session client
    (∀ call ∈ (o.script s).calls now.site, call.Confined) ∧
      ∀ e after, (o.work s).eval now.site = (.error e, after) → e.kind ≠ .permissionDenied := by
  intro now s
  have htame := Operation.tame (footing_run ho hroots hg hlinks hdeeds client) hop
  refine ⟨htame.calls, fun e after hrun => ?_⟩
  have hallowed := htame.allowed
  rw [Operation.run_stores, hrun] at hallowed
  exact hallowed e rfl

theorem onHost_plain : ∀ m ∈ onHost.registry.mounts, m.capability.location.Plain := by
  intro m hm
  cases List.mem_singleton.mp hm
  have hscheme : "file".toList.all (fun c =>
      isSchemeChar c && c.toLower == c && !isRefused c) = true := by decide +kernel
  constructor
  · rintro s ⟨⟩
    refine ⟨⟨'f', by decide +kernel, by decide +kernel⟩, fun c hc => ?_⟩
    simpa [and_assoc] using List.all_eq_true.mp hscheme c hc
  · rintro a ⟨⟩

theorem onHost_linksAmong (P : String → Prop) :
    onHost.site.LinksAmong P onHost.registry where
  disk m hm host hs := by
    cases List.mem_singleton.mp hm
    cases hs
    exact (HostTree.texts_bare {} ⟨0⟩).put Node.texts_directory
  table m hm name hT := by
    cases List.mem_singleton.mp hm
    cases hT

/-- A file is made behind a link, with the directory that it lacks. -/
theorem confined_run_behind_link :
    let deeds : List Deed :=
      [.request 0 (.makeDirectory "/d" false), .request 0 (.makeLink "/d" "/l" false)]
    let o : Operation := .errand (.createFile false true) (.text "/l/e/f")
    let now := onHost.run deeds
    let s := now.session 0
    onHost.Opening ∧
      (∀ m ∈ onHost.registry.mounts, ∀ host, m.backend.storage = .disk host →
        m.Rooted onHost.site) ∧
      (∀ host, (onHost.site.disk host).Grounded) ∧
      onHost.site.LinksAmong (fun n => ¬EndsBlank n) onHost.registry ∧
      (∀ deed ∈ deeds, deed.Among (fun n => ¬EndsBlank n) onHost.registry) ∧
      (o.Among fun n => ¬EndsBlank n) ∧
      ((o.script s).calls now.site).map Call.primitive =
        [.status "/l", .status "/d", .status "/d/e", .status "/d", .status "/d/e",
          .makeDirectory "/d/e", .write "/d/e/f" [] false] ∧
      (∀ call ∈ (o.script s).calls now.site, call.Confined) ∧
      ∀ e after, (o.work s).eval now.site = (.error e, after) → e.kind ≠ .permissionDenied := by
  intro deeds o now s
  have hgiven : ∀ deed ∈ deeds, ∀ raw ∈ deed.texts,
      Says (fun n => ¬StartsBlank n ∧ ¬EndsBlank n) raw := by decide +kernel
  have hdeeds : ∀ deed ∈ deeds, deed.Among (fun n => ¬EndsBlank n) onHost.registry :=
    fun deed hdeed => (Deed.among_of_says (fun _ hn => hn) onHost_plain (hgiven deed hdeed)).mono
      fun _ hn => hn.2
  have hroots : ∀ m ∈ onHost.registry.mounts, ∀ host, m.backend.storage = .disk host →
      m.Rooted onHost.site := fun m hm _ _ => onHost_rooted m hm
  have hop : o.Among fun n => ¬EndsBlank n := by
    intro arg harg
    cases List.mem_singleton.mp harg
    have hsays : Says (fun n => ¬EndsBlank n) "/l/e/f" := by decide +kernel
    exact hsays
  have hlinks := onHost_linksAmong fun n => ¬EndsBlank n
  exact ⟨onHost_opening, hroots, onHost_grounded, hlinks, hdeeds, hop, by decide +kernel,
    confined_run onHost onHost_opening hroots onHost_grounded hlinks deeds hdeeds 0 o hop⟩

end Scene

end MountSpace
