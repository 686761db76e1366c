import MountSpace.Proofs.Session.RootHistory
import MountSpace.Proofs.Session.Spots
import MountSpace.Proofs.Session.TreeHistory

/-!
# Where streams lead

The mount and the path to which the bytes of an output stream go are fixed when the stream is
given out.  Whatever happens until it is closed, closing it then changes the entry at that path and
nothing else, or fails and changes nothing, unless the host is led elsewhere.  It is, by a link that
has come to stand at the path when bytes are appended, and by a link in the place of the root.

## Main definitions

* `Session.Opens` — a request for an output stream, and where its path ends.
* `Scene.ClosesAt` — closing a stream changes what is kept at one spot, or fails without a trace.
* `Scene.Redirects` — a stream whose bytes a link leads elsewhere.

Main statement: `Scene.closesAt_iff`.
-/

namespace MountSpace

open MountSpace.Path

/-! ## Opening -/

/-- A request for an output stream, with the end of its path and how its bytes reach the file. -/
inductive Session.Opens (s : Session) (site : Site) : Request → Resolution → SinkMode → Prop
  | create {raw : String} {overwrite createParent : Bool} {path : Path} {r : Resolution} :
      s.qualified (.text raw) = .ok path → s.Resolves site path true r →
      Opens s site (.createFile raw overwrite createParent) r .replace
  | append {raw : String} {path : Path} {r : Resolution} :
      s.qualified (.text raw) = .ok path → s.Resolves site path true r →
      Opens s site (.appendFile raw) r .extend

namespace Session

variable {s : Session} {site after : Site} {path : Path} {r : Resolution} {mode : SinkMode}
  {q : Request} {answer : Answer}

theorem Resolves.unique {follow : Bool} {other : Resolution}
    (h : s.Resolves site path follow r) (h' : s.Resolves site path follow other) : r = other :=
  Except.ok.inj (Eq.trans (Eq.symm h) h')

/-- The stream that is given out leads to the end of the path. -/
theorem Opens.writing (h : s.Opens site q r mode)
    (hq : (q.work s).eval site = (.ok answer, after)) :
    ∃ stream, answer = .writing stream ⟨r.mount, r.path.localText, mode⟩ := by
  cases h with
  | @create raw overwrite createParent path r hpath hr =>
    obtain ⟨⟨stream, sink⟩, mid, hcreate, hq⟩ := Action.eval_bind_eq_ok hq
    cases hq
    obtain ⟨path', r', _, _, hpath', hr', -, -, -, rfl⟩ := createFile_eq_ok hcreate
    obtain rfl : path = path' := Except.ok.inj (hpath.symm.trans hpath')
    obtain rfl := hr.unique hr'
    exact ⟨_, rfl⟩
  | @append raw path r hpath hr =>
    obtain ⟨⟨stream, sink⟩, mid, happend, hq⟩ := Action.eval_bind_eq_ok hq
    cases hq
    obtain ⟨path', r', _, _, hpath', hr', -, -, -, -, rfl⟩ := appendFile_eq_ok happend
    obtain rfl : path = path' := Except.ok.inj (hpath.symm.trans hpath')
    obtain rfl := hr.unique hr'
    exact ⟨_, rfl⟩

end Session

namespace Scene

variable {scene : Scene} {stream : ℕ} {sink : Sink}

/-! ## Streams in histories -/

theorem run_append (scene : Scene) (deeds more : List Deed) :
    scene.run (deeds ++ more) = (scene.run deeds).run more := by
  simp [run]

theorem sink_useStream {other : ℕ} {use : Sink → OutputStream.Writing Site Unit} {s : OutputStream}
    (h : scene.streams[stream]? = some (s, sink)) :
    ∃ s', (scene.useStream other use).2.streams[stream]? = some (s', sink) := by
  unfold useStream
  cases hother : scene.streams[other]? with
  | none => exact ⟨s, h⟩
  | some entry =>
    obtain ⟨old, oldSink⟩ := entry
    dsimp only
    by_cases heq : other = stream
    · subst heq
      rw [h] at hother
      cases hother
      obtain ⟨hlt, -⟩ := List.getElem?_eq_some_iff.mp h
      exact ⟨_, List.getElem?_set_self hlt⟩
    · exact ⟨s, by rw [List.getElem?_set_ne heq, h]⟩

/-- A deed leaves where a stream leads. -/
theorem sink_after {s : OutputStream} (h : scene.streams[stream]? = some (s, sink)) (deed : Deed) :
    ∃ s', (scene.after deed).streams[stream]? = some (s', sink) := by
  cases deed with
  | request client q =>
    rw [after, step]
    rcases (q.work (scene.session client)).eval scene.site with ⟨e | answer, site⟩
    · exact ⟨s, h⟩
    · cases answer with
      | writing new newSink =>
        obtain ⟨hlt, -⟩ := List.getElem?_eq_some_iff.mp h
        exact ⟨s, (List.getElem?_append_left hlt).trans h⟩
      | done | truth | path | entry | entries | reading | directory => exact ⟨s, h⟩
  | write | close | discard => exact sink_useStream h
  | wait now => exact ⟨s, h⟩

/-- Whatever happens, a stream leads where it led. -/
theorem sink_run {s : OutputStream} (h : scene.streams[stream]? = some (s, sink))
    (deeds : List Deed) : ∃ s', (scene.run deeds).streams[stream]? = some (s', sink) := by
  induction deeds generalizing scene s with
  | nil => exact ⟨s, h⟩
  | cons deed deeds ih =>
    obtain ⟨s', h'⟩ := sink_after h deed
    exact ih h'

/-- A stream that is given out comes after those given out before, and goes on leading to the end
of its path. -/
theorem sink_of_opens {client : ℕ} {q : Request} {r : Resolution} {mode : SinkMode}
    {answer : Answer} (h : (scene.session client).Opens scene.site q r mode)
    (hok : (scene.step (.request client q)).1 = .ok answer) (later : List Deed) :
    ∃ s, (scene.run (.request client q :: later)).streams[scene.streams.length]? =
      some (s, ⟨r.mount, r.path.localText, mode⟩) := by
  rcases hq : (q.work (scene.session client)).eval scene.site with ⟨e | found, site⟩
  · rw [step, hq] at hok
    cases hok
  obtain ⟨s, rfl⟩ := h.writing hq
  have hafter : (scene.after (.request client q)).streams[scene.streams.length]? =
      some (s, ⟨r.mount, r.path.localText, mode⟩) := by
    rw [after, step, hq]
    exact List.getElem?_concat_length
  exact sink_run hafter later

/-! ## Closing -/

/-- Closing the stream changes nothing but what is kept at the spot, and not even that if it
fails.  The times of directories of the host are left out. -/
structure ClosesAt (scene : Scene) (stream : ℕ) (spot? : Option Spot) : Prop where
  raised : ∀ e, (scene.step (.close stream)).1 = .error e → ∀ spot,
    (scene.after (.close stream)).site.kept spot = scene.site.kept spot
  only : ∀ spot, spot? ≠ some spot →
    (scene.after (.close stream)).site.kept spot = scene.site.kept spot

/-- An open stream goes to a disk, and a link leads its bytes elsewhere. -/
def Redirects (scene : Scene) (stream : ℕ) : Prop :=
  ∃ s sink host, scene.streams[stream]? = some (s, sink) ∧ s.closed = false ∧
    sink.mount.backend.storage = .disk host ∧ sink.Diverted scene.site host s.buffer

theorem step_close_open {s : OutputStream} (hs : scene.streams[stream]? = some (s, sink))
    (hopen : s.closed = false) : (scene.step (.close stream)).1 =
      ((sink.commit s.buffer).eval scene.site).1.map fun _ => .done := by
  rw [step, useStream, hs]
  dsimp only
  rw [OutputStream.eval_close hopen]
  rcases (sink.commit s.buffer).eval scene.site with ⟨e | u, t⟩ <;> rfl

theorem step_close_closed {s : OutputStream} (hs : scene.streams[stream]? = some (s, sink))
    (hclosed : s.closed = true) : (scene.step (.close stream)).1 = .ok .done ∧
      (scene.after (.close stream)).site = scene.site := by
  obtain ⟨path, buffer, closed⟩ := s
  obtain rfl : closed = true := hclosed
  rw [after, step, useStream, hs]
  exact ⟨rfl, rfl⟩

/-- Bytes that are redirected change an entry elsewhere. -/
theorem Orderly.not_closesAt (ho : scene.Orderly) {s : OutputStream}
    (hs : scene.streams[stream]? = some (s, sink)) (h : scene.Redirects stream) :
    ¬scene.ClosesAt stream (sink.mount.spot? sink.path) := by
  obtain ⟨s', sink', host, hs', hopen, hstorage, hdiverted⟩ := h
  obtain ⟨rfl, rfl⟩ := Prod.mk.inj (Option.some.inj (hs.symm.trans hs'))
  obtain ⟨names, hnames, hpath⟩ := ho.sinks _ (List.mem_of_getElem? hs)
  obtain ⟨place, hne, hchanged⟩ := hdiverted.changes hstorage hnames hpath
  intro hcloses
  have hsame := hcloses.only _ hne
  rw [site_after_close_open hs hopen] at hsame
  exact hchanged hsame

/-- A stream that is not redirected changes nothing elsewhere. -/
theorem Orderly.closesAt (ho : scene.Orderly) {s : OutputStream}
    (hs : scene.streams[stream]? = some (s, sink)) (hno : ¬scene.Redirects stream) :
    scene.ClosesAt stream (sink.mount.spot? sink.path) := by
  cases hclosed : s.closed with
  | true =>
    obtain ⟨-, hsame⟩ := step_close_closed hs hclosed
    exact ⟨fun _ _ _ => by rw [hsame], fun _ _ => by rw [hsame]⟩
  | false =>
  obtain ⟨names, hnames, hpath⟩ := ho.sinks _ (List.mem_of_getElem? hs)
  rcases hcommit : (sink.commit s.buffer).eval scene.site with ⟨res, after⟩
  have hframe : (∀ e, res = .error e → ∀ spot, after.kept spot = scene.site.kept spot) ∧
      ∀ spot, sink.mount.spot? sink.path ≠ some spot →
        after.kept spot = scene.site.kept spot := by
    cases hstorage : sink.mount.backend.storage with
    | table name => exact Sink.kept_commit_table hstorage hcommit
    | disk host =>
      refine Sink.kept_commit_disk hstorage hnames hpath (fun hdiverted => ?_) hcommit
      exact hno ⟨s, sink, host, hs, hclosed, hstorage, hdiverted⟩
  have hsite : (scene.after (.close stream)).site = after := by
    rw [site_after_close_open hs hclosed, hcommit]
  have hstep := step_close_open hs hclosed
  rw [hcommit] at hstep
  constructor
  · intro e he spot
    rw [hsite]
    rw [hstep] at he
    cases res with
    | error e' => exact hframe.1 e' rfl spot
    | ok u => cases he
  · intro spot hne
    rw [hsite]
    exact hframe.2 spot hne

/-- **A stream is redirected only by a link at its path to which it appends, or by a link in the
place of its root.**  A client is given an output stream for a path, and anything may be done until
the stream is closed.  Closing it then changes what is kept at the end to which the path led when
the stream was given out, or fails and changes nothing, exactly when no such link leads the host
elsewhere.  What is kept elsewhere is kept outside the mounted directory as well as inside it. -/
theorem closesAt_iff (scene : Scene) (ho : scene.Opening) (before later : List Deed) (client : ℕ)
    (q : Request) (r : Resolution) (mode : SinkMode) (answer : Answer)
    (hopens : ((scene.run before).session client).Opens (scene.run before).site q r mode)
    (hok : ((scene.run before).step (.request client q)).1 = .ok answer) :
    (scene.run (before ++ .request client q :: later)).ClosesAt (scene.run before).streams.length
        (r.mount.spot? r.path.localText) ↔
      ¬(scene.run (before ++ .request client q :: later)).Redirects
        (scene.run before).streams.length := by
  obtain ⟨s, hs⟩ := sink_of_opens hopens hok later
  have horderly := ho.orderly.run (before ++ .request client q :: later)
  rw [run_append] at horderly ⊢
  generalize hsink : (⟨r.mount, r.path.localText, mode⟩ : Sink) = sink at hs
  obtain ⟨hmount, hpath⟩ : sink.mount = r.mount ∧ sink.path = r.path.localText := by
    rw [← hsink]
    exact ⟨rfl, rfl⟩
  rw [← hmount, ← hpath]
  constructor
  · intro hcloses hredirects
    exact horderly.not_closesAt hs hredirects hcloses
  · intro hno
    exact horderly.closesAt hs hno

/-- A link takes the place of a file that is being written, and is itself replaced in the end. -/
theorem closesAt_iff_replaced :
    let q : Request := .createFile "/f" false false
    let later : List Deed := [.write 0 [104, 105], .request 0 (.delete "/f" false),
      .request 0 (.makeLink "g" "/f" false)]
    let now := onHost.run ([] ++ .request 0 q :: later)
    onHost.Opening ∧ ∃ r answer,
      ((onHost.run []).session 0).Opens (onHost.run []).site q r .replace ∧
      ((onHost.run []).step (.request 0 q)).1 = .ok answer ∧
      (now.site.disk "h").tree.node? ["home", "f"] = some (.link "g") ∧
      (((now.after (.close 0)).site.disk "h").tree.node? ["home", "f"] =
        some (.file [104, 105])) ∧
      (now.ClosesAt (onHost.run []).streams.length (r.mount.spot? r.path.localText) ↔
        ¬now.Redirects (onHost.run []).streams.length) := by
  intro q later now
  let path : Path := { location := ⟨some "file", none⟩, segments := ["f"] }
  have hpath : ((onHost.run []).session 0).qualified (.text "/f") = .ok path := by decide +kernel
  have hend : (((onHost.run []).session 0).trace (onHost.run []).site path
      true).outcome.toOption.isSome = true := by decide +kernel
  have hanswer : ((onHost.run []).step (.request 0 q)).1.toOption.isSome = true := by
    decide +kernel
  cases hr : (((onHost.run []).session 0).trace (onHost.run []).site path true).outcome with
  | error e => rw [hr] at hend; cases hend
  | ok r =>
  cases hok : ((onHost.run []).step (.request 0 q)).1 with
  | error e => rw [hok] at hanswer; cases hanswer
  | ok answer =>
  have hopens : ((onHost.run []).session 0).Opens (onHost.run []).site q r .replace :=
    .create hpath hr
  exact ⟨onHost_opening, r, answer, hopens, rfl, by decide +kernel, by decide +kernel,
    closesAt_iff onHost onHost_opening [] later 0 q r .replace answer hopens hok⟩

/-- A link takes the place of a file to which is being appended, and the bytes end in the file to
which the link leads. -/
theorem not_closesAt_link :
    let before : List Deed := [.request 0 (.createFile "/f" false false),
      .request 0 (.createFile "/g" false false)]
    let q : Request := .appendFile "/f"
    let later : List Deed := [.write 2 [104, 105], .request 0 (.delete "/f" false),
      .request 0 (.makeLink "g" "/f" false)]
    let now := onHost.run (before ++ .request 0 q :: later)
    onHost.Opening ∧ ∃ r answer,
      ((onHost.run before).session 0).Opens (onHost.run before).site q r .extend ∧
      ((onHost.run before).step (.request 0 q)).1 = .ok answer ∧ r.mount.Rooted now.site ∧
      (((now.after (.close 2)).site.disk "h").tree.node? ["home", "g"] =
        some (.file [104, 105])) ∧
      ¬now.ClosesAt (onHost.run before).streams.length (r.mount.spot? r.path.localText) := by
  intro before q later now
  let path : Path := { location := ⟨some "file", none⟩, segments := ["f"] }
  have hpath : ((onHost.run before).session 0).qualified (.text "/f") = .ok path := by
    decide +kernel
  have hend : (((onHost.run before).session 0).trace (onHost.run before).site path
      true).outcome.toOption.map (fun r => (r.mount, r.path)) = some (.ofHost "h", path) := by
    decide +kernel
  have hanswer : ((onHost.run before).step (.request 0 q)).1.toOption.isSome = true := by
    decide +kernel
  cases hr : (((onHost.run before).session 0).trace (onHost.run before).site path
    true).outcome with
  | error e => rw [hr] at hend; cases hend
  | ok r =>
  cases hok : ((onHost.run before).step (.request 0 q)).1 with
  | error e => rw [hok] at hanswer; cases hanswer
  | ok answer =>
  obtain ⟨hmount, hplace⟩ : r.mount = .ofHost "h" ∧ r.path = path := by
    rw [hr] at hend
    exact Prod.mk.inj (Option.some.inj hend)
  have hchanged : (now.after (.close 2)).site.kept (.place "h" ["home", "g"]) ≠
      now.site.kept (.place "h" ["home", "g"]) := by decide +kernel
  have helsewhere : r.mount.spot? r.path.localText ≠ some (.place "h" ["home", "g"]) := by
    rw [hmount, hplace]
    decide +kernel
  refine ⟨onHost_opening, r, answer, .append hpath hr, rfl, ?_, by decide +kernel, ?_⟩
  · rw [hmount]
    decide +kernel
  · intro hcloses
    exact hchanged (hcloses.only _ helsewhere)

/-- A link with a text from the root leads the bytes out of the mounted directory. -/
example :
    let host : Disk := ⟨(Disk.fresh {} ⟨0⟩).tree.put ["victim"] ((Node.file []).fresh ⟨0⟩)⟩
    let scene : Scene := { onHost with site := onHost.site.setDisk "h" host }
    let now := scene.run [.request 0 (.createFile "/f" false false), .request 0 (.appendFile "/f"),
      .write 1 [104, 105], .request 0 (.delete "/f" false),
      .request 0 (.makeLink "/victim" "/f" false), .close 1]
    (now.site.disk "h").tree.node? ["victim"] = some (.file [104, 105]) := by decide +kernel

end Scene

end MountSpace
