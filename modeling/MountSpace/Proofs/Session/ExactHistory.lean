import MountSpace.Proofs.Session.Tidy
import MountSpace.Proofs.Session.TreeHistory

/-!
# Rows that agree in histories

A table that begins empty keeps the columns of its rows in agreement, as long as nobody puts a blank
at the end of a name.  Streams may be closed at any later time, and other stores may be mounted
beside the table.

## Main definitions

* `Deed.Among` — a deed that keeps to tidy names.
* `Scene.Tidy` — what holds of the stores, the clients and the streams all along.

Main statement: `Scene.exact_run`.
-/

namespace MountSpace

open MountSpace.Path

/-- A request keeps to names with the property; everything else that happens names nothing. -/
def Deed.Among (P : String → Prop) (reg : Registry) : Deed → Prop
  | .request _ q => q.Among P reg
  | _ => True

/-- All texts of a deed that are read as paths. -/
def Deed.texts : Deed → List String
  | .request _ q => q.texts
  | _ => []

theorem Deed.Among.mono {P Q : String → Prop} {reg : Registry} {deed : Deed}
    (h : deed.Among P reg) (hPQ : ∀ n, P n → Q n) : deed.Among Q reg := by
  cases deed with
  | request client q => exact Request.Among.mono h hPQ
  | write | close | discard | wait => trivial

/-- Names without blanks around them are the same as given and as stored, if mounts have addresses
as they can be read. -/
theorem Deed.among_of_says {P : String → Prop} {reg : Registry} {deed : Deed}
    (hP : ∀ n, P n → ¬StartsBlank n ∧ ¬EndsBlank n)
    (hreg : ∀ m ∈ reg.mounts, m.capability.location.Plain)
    (h : ∀ raw ∈ deed.texts, Says P raw) : deed.Among P reg := by
  cases deed with
  | request client q => exact Request.among_of_says hP hreg h
  | write | close | discard | wait => trivial

namespace Scene

/-- The stores are tidy, clients stand at tidy paths, and streams lead to such paths. -/
structure Tidy (P : String → Prop) (T : TableName) (scene : Scene) : Prop where
  site : scene.site.Tidy P scene.registry T
  standpoint : ∀ client, (scene.standpoint client).workingDirectory.Among P
  sinks : ∀ entry ∈ scene.streams, ∃ names, Table.Plain names ∧
    entry.2.path = rootText names ∧ (entry.2.mount.table? = some T → names ≠ [])

variable {P : String → Prop} {scene : Scene} {T : TableName} {deed : Deed}

theorem Opening.tidy (ho : scene.Opening) (h : scene.site.Tidy P scene.registry T) :
    scene.Tidy P T where
  site := h
  standpoint client := by
    rw [ho.standpoint]
    exact among_root P _
  sinks entry hentry := by simp [ho.streams] at hentry

/-! ## The mounts stay -/

@[simp] theorem registry_useStream (stream : ℕ)
    (use : Sink → OutputStream.Writing Site Unit) :
    (scene.useStream stream use).2.registry = scene.registry := by
  unfold useStream
  split <;> rfl

@[simp] theorem registry_after (scene : Scene) (deed : Deed) :
    (scene.after deed).registry = scene.registry := by
  cases deed with
  | request client q =>
    rw [after, step]
    rcases (q.work (scene.session client)).eval scene.site with ⟨e | answer, site⟩
    · rfl
    · cases answer <;> rfl
  | write stream data => exact registry_useStream stream _
  | close stream => exact registry_useStream stream _
  | discard stream => exact registry_useStream stream _
  | wait now => rfl

@[simp] theorem registry_run (scene : Scene) (deeds : List Deed) :
    (scene.run deeds).registry = scene.registry := by
  induction deeds using List.reverseRecOn with
  | nil => rfl
  | append_singleton deeds deed ih => rw [run_concat, registry_after, ih]

/-! ## Streams -/

namespace Tidy

variable (h : scene.Tidy P T)

include h

/-- What is done to a stream leaves the clients and the ends of the streams. -/
theorem useStream {stream : ℕ} {use : Sink → OutputStream.Writing Site Unit}
    (hsite : (scene.useStream stream use).2.site.Tidy P scene.registry T) :
    (scene.useStream stream use).2.Tidy P T where
  site := by rwa [registry_useStream]
  standpoint client := by
    rw [standpoint_useStream]
    exact h.standpoint client
  sinks entry hentry := by
    obtain ⟨old, hold, hsink⟩ := mem_useStream hentry
    rw [← hsink]
    exact h.sinks old hold

/-- The bytes of a stream go into the row of its file, or into a new one. -/
theorem commit {stream : OutputStream} {sink : Sink} (hmem : (stream, sink) ∈ scene.streams)
    (data : Bytes) : ((sink.commit data).eval scene.site).2.Tidy P scene.registry T := by
  obtain ⟨names, hplain, hpath, hne⟩ := h.sinks _ hmem
  dsimp only at hpath hne
  rcases hcommit : (sink.commit data).eval scene.site with ⟨res, after⟩
  unfold Sink.commit at hcommit
  rw [hpath] at hcommit
  cases hmode : sink.mode with
  | replace =>
    rw [hmode] at hcommit
    exact h.site.write hplain hne hcommit
  | extend =>
    rw [hmode] at hcommit
    exact h.site.append hcommit

theorem after_close (stream : ℕ) : (scene.after (.close stream)).Tidy P T := by
  refine h.useStream ?_
  change (scene.after (.close stream)).site.Tidy P scene.registry T
  rcases site_after_close scene stream with hsame | ⟨s, sink, hstream, -, hafter⟩
  · rw [hsame]
    exact h.site
  · rw [hafter]
    exact h.commit (List.mem_of_getElem? hstream) s.buffer

/-! ## Requests -/

variable (hP : ∀ n, P n → ¬EndsBlank n) (ho : scene.Orderly)

include hP ho

/-- A new stream leads to a tidy path, and in the table below the root. -/
theorem sink_of_leads {client : ℕ} {raw : String} {sink : Sink} (hraw : Says P raw)
    (hleads : (scene.session client).Leads scene.site raw sink) : ∃ names, Table.Plain names ∧
      sink.path = rootText names ∧ (sink.mount.table? = some T → names ≠ []) := by
  obtain ⟨path, r, hpath, hr, hfile, hmount, hsink⟩ := hleads
  have htidies := hr.tidies (ho.proper client) (h.standpoint client) hraw hpath h.site
  refine ⟨_, htidies.plain hP, hsink.trans htidies.ending.localText_eq, fun hT => ?_⟩
  exact htidies.ending.ne_nil_of_table (hmount ▸ hT) hfile

omit hP in
/-- A client goes on standing at a tidy path. -/
theorem among_of_enters {client : ℕ} {raw : String} {p : Path} (hraw : Says P raw)
    (henters : (scene.session client).Enters scene.site raw p) : p.Among P := by
  obtain ⟨path, r, status, hpath, hr, -, -, hp⟩ := henters
  rcases hp with rfl | rfl
  · exact (hr.tidies (ho.proper client) (h.standpoint client) hraw hpath h.site).among
  · exact Session.among_of_qualified (h.standpoint client) hraw hpath

theorem note {client : ℕ} {q : Request} (hq : q.Among P scene.registry) {answer : Answer}
    {site : Site} (hwork : (q.work (scene.session client)).eval scene.site = (.ok answer, site))
    (hsite : site.Tidy P scene.registry T) :
    (Scene.note { scene with site } client answer).Tidy P T := by
  obtain ⟨hd, hw⟩ := Session.of_answer hwork
  cases answer with
  | writing stream sink =>
    obtain ⟨raw, hraw, hleads⟩ := hw stream sink rfl
    refine ⟨hsite, h.standpoint, fun entry hentry => ?_⟩
    rcases List.mem_append.mp hentry with hentry | hentry
    · exact h.sinks entry hentry
    · rw [List.mem_singleton.mp hentry]
      exact h.sink_of_leads hP ho (hq.paths raw hraw) hleads
  | directory p =>
    obtain ⟨raw, hraw, henters⟩ := hd p rfl
    refine ⟨hsite, fun other => ?_, h.sinks⟩
    by_cases hother : other = client
    · subst hother
      simpa [Scene.note] using h.among_of_enters ho (hq.paths raw hraw) henters
    · simpa [Scene.note, Function.update_of_ne hother] using h.standpoint other
  | done | truth | path | entry | entries | reading => exact ⟨hsite, h.standpoint, h.sinks⟩

/-- **A deed that keeps to tidy names leaves everything tidy.** -/
theorem after (hdeed : deed.Among P scene.registry) : (scene.after deed).Tidy P T := by
  cases deed with
  | request client q =>
    rw [Scene.after, step]
    rcases hq : (q.work (scene.session client)).eval scene.site with ⟨res, site⟩
    have hsite : site.Tidy P scene.registry T :=
      Session.tidy_after (s := scene.session client) hP (ho.proper client) (h.standpoint client)
        h.site hdeed hq
    cases res with
    | error e => exact ⟨hsite, h.standpoint, h.sinks⟩
    | ok answer => exact h.note hP ho hdeed hq hsite
  | write stream data =>
    refine h.useStream ?_
    change (scene.after (.write stream data)).site.Tidy P scene.registry T
    rw [site_after_write]
    exact h.site
  | close stream => exact h.after_close stream
  | discard stream =>
    refine h.useStream ?_
    change (scene.after (.discard stream)).site.Tidy P scene.registry T
    rw [site_after_discard]
    exact h.site
  | wait now =>
    refine ⟨⟨⟨fun m hm host hs => ?_, h.site.table⟩, h.site.exact⟩, h.standpoint, h.sinks⟩
    exact disk_wait (fun _ now' _ => HostTree.texts_bare {} now') scene.site now
      (h.site.disk m hm host hs)

/-- Everything stays tidy, however long the history is. -/
theorem run {deeds : List Deed} (hdeeds : ∀ deed ∈ deeds, deed.Among P scene.registry) :
    (scene.run deeds).Tidy P T := by
  induction deeds using List.reverseRecOn with
  | nil => exact h
  | append_singleton deeds deed ih =>
    rw [run_concat]
    refine (ih fun d hd => hdeeds d (by simp [hd])).after hP (ho.run deeds) ?_
    rw [registry_run]
    exact hdeeds deed (by simp)

end Tidy

/-- **The columns of a table agree, whatever happens.**  In every history that begins with an empty
table and puts no blank at the end of a name, the rows have distinct paths, and each is kept under
the text of a path below the root, with the directory, the name, the size and the target that go
with it. -/
theorem exact_run (scene : Scene) (ho : scene.Opening) (T : TableName)
    (hempty : (scene.site.table T).rows = [])
    (hlinks : scene.site.LinksAmong (fun n => ¬EndsBlank n) scene.registry) (deeds : List Deed)
    (hdeeds : ∀ deed ∈ deeds, deed.Among (fun n => ¬EndsBlank n) scene.registry) :
    ((scene.run deeds).site.table T).Exact := by
  have htidy := ho.tidy ⟨hlinks, Table.exact_of_nil hempty⟩
  exact (htidy.run (fun _ hn => hn) ho.orderly hdeeds).site.exact

theorem onTable_plain : ∀ m ∈ onTable.registry.mounts, m.capability.location.Plain := by
  intro m hm
  cases List.mem_singleton.mp hm
  have hscheme : "lfs".toList.all (fun c =>
      isSchemeChar c && c.toLower == c && !isRefused c) = true := by decide +kernel
  have hauthority : "nn".toList.all (!isRefused ·) = true := by decide +kernel
  constructor
  · rintro s ⟨⟩
    refine ⟨⟨'l', by decide +kernel, by decide +kernel⟩, fun c hc => ?_⟩
    simpa [and_assoc] using List.all_eq_true.mp hscheme c hc
  · rintro a ⟨⟩
    refine ⟨by decide +kernel, by decide +kernel, fun c hc => ?_⟩
    simpa using List.all_eq_true.mp hauthority c hc

theorem onTable_linksAmong (P : String → Prop) :
    onTable.site.LinksAmong P onTable.registry where
  disk m hm host hs := by
    cases List.mem_singleton.mp hm
    cases hs
  table m hm name hT := by
    cases List.mem_singleton.mp hm
    cases hT
    exact List.forall_mem_nil _

/-- A directory with a file and a link is moved away from an open stream, which then writes its file
anew. -/
theorem exact_run_moved :
    let T : TableName := ⟨"db", "entries"⟩
    let deeds : List Deed :=
      [.request 0 (.makeDirectory "/d" false), .request 0 (.createFile "/d/f" false false),
        .write 0 [104, 105], .request 0 (.makeLink "/d/f" "/d/l" false),
        .request 0 (.move "/d" "/e" false), .close 0]
    onTable.Opening ∧ (onTable.site.table T).rows = [] ∧
      onTable.site.LinksAmong (fun n => ¬EndsBlank n) onTable.registry ∧
      (∀ deed ∈ deeds, deed.Among (fun n => ¬EndsBlank n) onTable.registry) ∧
      ((onTable.run deeds).site.table T).rows.map (fun row => (row.path, row.size, row.target)) =
        [("/e", 0, none), ("/e/f", 0, none), ("/e/l", 0, some "lfs://nn/d/f"),
          ("/d/f", 2, none)] ∧
      ((onTable.run deeds).site.table T).Exact := by
  intro T deeds
  have hgiven : ∀ deed ∈ deeds, ∀ raw ∈ deed.texts,
      Says (fun n => ¬StartsBlank n ∧ ¬EndsBlank n) raw := by decide +kernel
  have hdeeds : ∀ deed ∈ deeds, deed.Among (fun n => ¬EndsBlank n) onTable.registry :=
    fun deed hdeed => (Deed.among_of_says (fun _ hn => hn) onTable_plain (hgiven deed hdeed)).mono
      fun _ hn => hn.2
  have hlinks := onTable_linksAmong fun n => ¬EndsBlank n
  exact ⟨onTable_opening, rfl, hlinks, hdeeds, by decide +kernel,
    exact_run onTable onTable_opening T rfl hlinks deeds hdeeds⟩

end Scene

end MountSpace
