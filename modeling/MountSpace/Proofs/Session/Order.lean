import MountSpace.Proofs.Session.Requests
import MountSpace.Proofs.Stream.Closing

/-!
# Order in a history

Whatever happens, clients go on standing at complete paths, and streams go on leading to paths
written out from a root.

## Main definitions

* `Session.Enters`, `Session.Leads` — the directories and streams that requests give out.
* `Request.paths` — the paths that a request names.
* `Scene.Orderly` — what holds of clients and streams all along.

Main statements: `Scene.Orderly.after`, `Scene.Orderly.run`, and what each deed does to the site.
-/

namespace MountSpace

open MountSpace.Path

/-! ## Answers -/

namespace Session

variable {s : Session} {site after : Site} {raw : String}

theorem Ending.complete {r : Resolution} {follow : Bool} (h : s.Ending site follow r) :
    r.path.Complete := by
  have hpath := h.path_eq
  refine ⟨?_, by rw [hpath]; rfl, by rw [hpath]; rfl⟩
  exact normal_of_ordinary (by rw [hpath]; rfl) h.ordinary

theorem Resolves.complete_of_eq {path p : Path} {r : Resolution}
    (hr : s.Resolves site path true r) (hpath : path.Complete) (hp : p = r.path ∨ p = path) :
    p.Complete := by
  rcases hp with rfl | rfl
  · exact (hr.ending hpath.normal hpath.absolute).complete
  · exact hpath

/-- Where a client stands after a request: at the end of its path, where a directory is, or at the
path itself. -/
def Enters (s : Session) (site : Site) (raw : String) (p : Path) : Prop :=
  ∃ path r status, s.qualified (.text raw) = .ok path ∧ s.Resolves site path true r ∧
    r.status = some status ∧ status.kind = .directory ∧ (p = r.path ∨ p = path)

/-- A change that succeeds ends at a directory, and gives its path or the one that was given. -/
theorem changeDirectory_eq_ok {arg : PathArg} {p : Path}
    (h : (s.changeDirectory arg).eval site = (.ok p, after)) :
    ∃ path r status, s.qualified arg = .ok path ∧ s.Resolves site path true r ∧
      r.status = some status ∧ status.kind = .directory ∧ (p = r.path ∨ p = path) := by
  unfold changeDirectory at h
  obtain ⟨path, hpath, h⟩ := Action.eval_ofExcept_eq_ok h
  obtain ⟨⟨r, status⟩, u, hr, h⟩ := Action.eval_bind_eq_ok h
  obtain ⟨hresolves, hstatus, -⟩ := resolves_of_require hr
  obtain ⟨hkind, h⟩ := Action.eval_check_eq_ok h
  obtain ⟨owner, -, h⟩ := Action.eval_ofExcept_eq_ok h
  cases h
  refine ⟨path, r, status, hpath, hresolves, hstatus, by simpa using hkind, ?_⟩
  split
  · exact .inl rfl
  · exact .inr rfl

/-- Where the stream of a request leads: to the end of its path, where no directory is. -/
def Leads (s : Session) (site : Site) (raw : String) (sink : Sink) : Prop :=
  ∃ path r, s.qualified (.text raw) = .ok path ∧ s.Resolves site path true r ∧
    (∀ status, r.status = some status → status.kind ≠ .directory) ∧
    sink.mount = r.mount ∧ sink.path = r.path.localText

theorem createFile_leads {overwrite createParent : Bool} {stream : OutputStream} {sink : Sink}
    (h : (s.createFile (.text raw) overwrite createParent).eval site =
      (.ok (stream, sink), after)) : s.Leads site raw sink := by
  obtain ⟨path, r, _, _, hpath, hr, hready, -, rfl, rfl⟩ := createFile_eq_ok h
  exact ⟨path, r, hpath, hr, kind_ne_of_ready hready, rfl, rfl⟩

theorem appendFile_leads {stream : OutputStream} {sink : Sink}
    (h : (s.appendFile (.text raw)).eval site = (.ok (stream, sink), after)) :
    s.Leads site raw sink := by
  obtain ⟨path, r, status, _, hpath, hresolves, hstatus, hkind, -, rfl, rfl⟩ := appendFile_eq_ok h
  refine ⟨path, r, hpath, hresolves, fun found hfound => ?_, rfl, rfl⟩
  rw [hstatus] at hfound
  cases hfound
  exact hkind

end Session

/-- The paths that a request names. -/
def Request.paths : Request → List String
  | .makeLink _ link _ => [link]
  | .move src dst _ => [src, dst]
  | .linkTarget path | .status path | .linkStatus path | .exists_ path | .isFile path
  | .isDirectory path | .resolvePath path | .list path | .openFile path | .createFile path _ _
  | .appendFile path | .makeDirectory path _ | .delete path _ | .setTimes path _ _
  | .changeDirectory path => [path]

namespace Session

variable {s : Session} {site after : Site} {q : Request} {answer : Answer}

/-- New working directories and streams lead to the ends of the paths of requests. -/
theorem of_answer (h : (q.work s).eval site = (.ok answer, after)) :
    (∀ p, answer = .directory p → ∃ raw ∈ q.paths, s.Enters site raw p) ∧
      ∀ stream sink, answer = .writing stream sink → ∃ raw ∈ q.paths, s.Leads site raw sink := by
  cases q with
  | createFile path overwrite createParent =>
    obtain ⟨⟨stream, sink⟩, u, hwork, h⟩ := Action.eval_bind_eq_ok h
    cases h
    refine ⟨fun p hp => (nomatch hp), fun stream' sink' heq => ?_⟩
    cases heq
    exact ⟨path, by simp [Request.paths], createFile_leads hwork⟩
  | appendFile path =>
    obtain ⟨⟨stream, sink⟩, u, hwork, h⟩ := Action.eval_bind_eq_ok h
    cases h
    refine ⟨fun p hp => (nomatch hp), fun stream' sink' heq => ?_⟩
    cases heq
    exact ⟨path, by simp [Request.paths], appendFile_leads hwork⟩
  | changeDirectory path =>
    obtain ⟨p, hwork, rfl⟩ := Action.eval_map_eq_ok h
    refine ⟨fun p' hp => ?_, fun stream sink heq => (nomatch heq)⟩
    cases hp
    exact ⟨path, by simp [Request.paths], changeDirectory_eq_ok hwork⟩
  | makeLink | makeDirectory | move | setTimes =>
    obtain ⟨_, u, -, h⟩ := Action.eval_bind_eq_ok h
    cases h
    exact ⟨fun p hp => (nomatch hp), fun stream sink heq => (nomatch heq)⟩
  | linkTarget | status | linkStatus | exists_ | isFile | isDirectory | resolvePath | list
  | openFile | delete =>
    obtain ⟨x, -, rfl⟩ := Action.eval_map_eq_ok h
    exact ⟨fun p hp => (nomatch hp), fun stream sink heq => (nomatch heq)⟩

theorem Enters.complete {raw : String} {p : Path} (h : s.Enters site raw p)
    (hs : s.standpoint.Proper) : p.Complete := by
  obtain ⟨path, r, status, hpath, hr, -, -, hp⟩ := h
  have hcomplete := complete_of_qualified hs hpath
  exact hr.complete_of_eq hcomplete hp

theorem Leads.ordinary {raw : String} {sink : Sink} (h : s.Leads site raw sink)
    (hs : s.standpoint.Proper) :
    ∃ names, (∀ n ∈ names, Ordinary n) ∧ sink.path = rootText names := by
  obtain ⟨path, r, hpath, hr, -, -, hsink⟩ := h
  have hcomplete := complete_of_qualified hs hpath
  have hending := hr.ending hcomplete.normal hcomplete.absolute
  exact ⟨_, hending.ordinary, hsink.trans hending.localText_eq⟩

end Session

/-! ## Deeds -/

namespace Scene

variable {scene : Scene} {deed : Deed}

/-- Clients stand at complete paths, and streams lead to paths written out from a root. -/
structure Orderly (scene : Scene) : Prop where
  proper : ∀ client, (scene.standpoint client).Proper
  sinks : ∀ entry ∈ scene.streams, ∃ names, (∀ n ∈ names, Ordinary n) ∧
    entry.2.path = rootText names

theorem Opening.orderly (h : scene.Opening) : scene.Orderly where
  proper client := by
    rw [Standpoint.Proper, h.standpoint]
    exact Capability.rootPath_complete _
  sinks entry hentry := by simp [h.streams] at hentry

@[simp] theorem site_note (client : ℕ) (answer : Answer) :
    (scene.note client answer).site = scene.site := by
  cases answer <;> rfl

/-- A request leaves the site as its work does. -/
theorem site_after_request (scene : Scene) (client : ℕ) (q : Request) :
    (scene.after (.request client q)).site =
      ((q.work (scene.session client)).eval scene.site).2 := by
  rw [after, step]
  rcases (q.work (scene.session client)).eval scene.site with ⟨e | answer, site⟩
  · rfl
  · exact site_note client answer

theorem mem_useStream {stream : ℕ} {use : Sink → OutputStream.Writing Site Unit}
    {entry : OutputStream × Sink} (h : entry ∈ (scene.useStream stream use).2.streams) :
    ∃ old ∈ scene.streams, old.2 = entry.2 := by
  unfold useStream at h
  cases hs : scene.streams[stream]? with
  | none => rw [hs] at h; exact ⟨entry, h, rfl⟩
  | some old =>
    rw [hs] at h
    rcases List.mem_or_eq_of_mem_set h with hmem | rfl
    · exact ⟨entry, hmem, rfl⟩
    · exact ⟨old, List.mem_of_getElem? hs, rfl⟩

theorem standpoint_useStream (stream : ℕ) (use : Sink → OutputStream.Writing Site Unit) :
    (scene.useStream stream use).2.standpoint = scene.standpoint := by
  unfold useStream
  split <;> rfl

theorem Orderly.useStream (h : scene.Orderly) (stream : ℕ)
    (use : Sink → OutputStream.Writing Site Unit) : (scene.useStream stream use).2.Orderly where
  proper client := by
    rw [standpoint_useStream]
    exact h.proper client
  sinks entry hentry := by
    obtain ⟨old, hold, hsink⟩ := mem_useStream hentry
    rw [← hsink]
    exact h.sinks old hold

theorem Orderly.note (h : scene.Orderly) (client : ℕ) {answer : Answer}
    (hd : ∀ p, answer = .directory p → p.Complete)
    (hw : ∀ stream sink, answer = .writing stream sink →
      ∃ names, (∀ n ∈ names, Ordinary n) ∧ sink.path = rootText names) :
    (scene.note client answer).Orderly := by
  cases answer with
  | writing stream sink =>
    refine ⟨h.proper, fun entry hentry => ?_⟩
    rcases List.mem_append.mp hentry with hentry | hentry
    · exact h.sinks entry hentry
    · rw [List.mem_singleton.mp hentry]
      exact hw stream sink rfl
  | directory p =>
    refine ⟨fun other => ?_, h.sinks⟩
    by_cases hother : other = client
    · subst hother
      simpa [Scene.note, Standpoint.Proper] using hd p rfl
    · simpa [Scene.note, Function.update_of_ne hother] using h.proper other
  | done | truth | path | entry | entries | reading => exact h

/-- The answers of requests keep the order. -/
theorem answer_complete (h : scene.Orderly) (client : ℕ) {q : Request} {answer : Answer}
    {site : Site} (hq : (q.work (scene.session client)).eval scene.site = (.ok answer, site)) :
    (∀ p, answer = .directory p → p.Complete) ∧
      ∀ stream sink, answer = .writing stream sink →
        ∃ names, (∀ n ∈ names, Ordinary n) ∧ sink.path = rootText names := by
  have hproper : (scene.session client).standpoint.Proper := h.proper client
  obtain ⟨hd, hw⟩ := Session.of_answer hq
  constructor
  · intro p hp
    obtain ⟨raw, -, henters⟩ := hd p hp
    exact henters.complete hproper
  · intro stream sink heq
    obtain ⟨raw, -, hleads⟩ := hw stream sink heq
    exact hleads.ordinary hproper

/-- **Order is kept** by whatever happens. -/
theorem Orderly.after (h : scene.Orderly) (deed : Deed) : (scene.after deed).Orderly := by
  cases deed with
  | request client q =>
    rw [Scene.after, step]
    rcases hq : (q.work (scene.session client)).eval scene.site with ⟨e | answer, site⟩
    · exact ⟨h.proper, h.sinks⟩
    · obtain ⟨hd, hw⟩ := answer_complete h client hq
      have hsite : Orderly { scene with site } := ⟨h.proper, h.sinks⟩
      exact hsite.note client hd hw
  | write stream data => exact h.useStream stream _
  | close stream => exact h.useStream stream _
  | discard stream => exact h.useStream stream _
  | wait now => exact ⟨h.proper, h.sinks⟩

theorem Orderly.run (h : scene.Orderly) (deeds : List Deed) : (scene.run deeds).Orderly := by
  induction deeds using List.reverseRecOn with
  | nil => exact h
  | append_singleton deeds deed ih =>
    rw [run_concat]
    exact ih.after deed

/-! ## What deeds do to the site -/

theorem site_after_write (stream : ℕ) (data : Bytes) :
    (scene.after (.write stream data)).site = scene.site := by
  rw [Scene.after, step, useStream]
  split
  · rfl
  · rename_i s sink _
    obtain ⟨path, buffer, closed⟩ := s
    cases closed <;> rfl

theorem site_after_discard (stream : ℕ) :
    (scene.after (.discard stream)).site = scene.site := by
  rw [Scene.after, step, useStream]
  split <;> rfl

/-- Closing a stream that is open commits its bytes. -/
theorem site_after_close_open {stream : ℕ} {s : OutputStream} {sink : Sink}
    (hs : scene.streams[stream]? = some (s, sink)) (hopen : s.closed = false) :
    (scene.after (.close stream)).site = ((sink.commit s.buffer).eval scene.site).2 := by
  rw [Scene.after, step, useStream, hs]
  dsimp only
  rw [OutputStream.eval_close hopen]
  rcases (sink.commit s.buffer).eval scene.site with ⟨e | u, t⟩ <;> rfl

theorem site_after_close (scene : Scene) (stream : ℕ) :
    (scene.after (.close stream)).site = scene.site ∨
      ∃ s sink, scene.streams[stream]? = some (s, sink) ∧ s.closed = false ∧
        (scene.after (.close stream)).site = ((sink.commit s.buffer).eval scene.site).2 := by
  cases hs : scene.streams[stream]? with
  | none =>
    rw [Scene.after, step, useStream, hs]
    exact .inl rfl
  | some entry =>
    obtain ⟨⟨path, buffer, closed⟩, sink⟩ := entry
    cases closed with
    | false => exact .inr ⟨_, sink, rfl, rfl, site_after_close_open hs rfl⟩
    | true =>
      rw [Scene.after, step, useStream, hs]
      exact .inl rfl

end Scene

end MountSpace
