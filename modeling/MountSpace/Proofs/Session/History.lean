import MountSpace.Proofs.Session.Ends

/-!
# Histories

What clients do over time: they make requests, with every path given as a text, and they write to
the output streams they were given, or close or discard them, at any later time.

## Main definitions

* `Request`, `Request.work` — what a client may ask for, and the answer.
* `Deed` — a request, something done to a stream, or time that passes.
* `Scene` — the site, where each client stands, and the streams that were given out.
* `Scene.step`, `Scene.run` — one deed, and one after the other.
* `Scene.Opening` — how a history begins.
-/

namespace MountSpace

/-- What a client may ask for. -/
inductive Request
  | makeLink (target link : String) (createParent : Bool)
  | linkTarget (path : String)
  | status (path : String)
  | linkStatus (path : String)
  | exists_ (path : String)
  | isFile (path : String)
  | isDirectory (path : String)
  | resolvePath (path : String)
  | list (path : String)
  | openFile (path : String)
  | createFile (path : String) (overwrite createParent : Bool)
  | appendFile (path : String)
  | makeDirectory (path : String) (createParent : Bool)
  | delete (path : String) (recursive : Bool)
  | move (src dst : String) (overwrite : Bool)
  | setTimes (path : String) (accessed modified : Option Moment)
  | changeDirectory (path : String)
  deriving DecidableEq, Repr

/-- What a request gives back. -/
inductive Answer
  | done
  | truth (b : Bool)
  | path (p : Path)
  | entry (s : Status)
  | entries (l : List Status)
  | reading (s : InputStream)
  | writing (s : OutputStream) (sink : Sink)
  | directory (p : Path)
  deriving DecidableEq, Repr

/-- What a request does. -/
def Request.work (s : Session) : Request → Work Answer
  | .makeLink target link createParent => do
    s.makeLink (.text target) (.text link) createParent
    return .done
  | .linkTarget path => .path <$> s.linkTarget (.text path)
  | .status path => .entry <$> s.status (.text path)
  | .linkStatus path => .entry <$> s.linkStatus (.text path)
  | .exists_ path => .truth <$> s.exists_ (.text path)
  | .isFile path => .truth <$> s.isFile (.text path)
  | .isDirectory path => .truth <$> s.isDirectory (.text path)
  | .resolvePath path => .path <$> s.resolvePath (.text path)
  | .list path => .entries <$> s.list (.text path)
  | .openFile path => .reading <$> s.openFile (.text path)
  | .createFile path overwrite createParent => do
    let (stream, sink) ← s.createFile (.text path) overwrite createParent
    return .writing stream sink
  | .appendFile path => do
    let (stream, sink) ← s.appendFile (.text path)
    return .writing stream sink
  | .makeDirectory path createParent => do
    s.makeDirectory (.text path) createParent
    return .done
  | .delete path recursive => .truth <$> s.delete (.text path) recursive
  | .move src dst overwrite => do
    s.move (.text src) (.text dst) overwrite
    return .done
  | .setTimes path accessed modified => do
    s.setTimes (.text path) accessed modified
    return .done
  | .changeDirectory path => .directory <$> s.changeDirectory (.text path)

/-- One thing that happens. -/
inductive Deed
  /-- A client makes a request. -/
  | request (client : ℕ) (q : Request)
  /-- Bytes are written to a stream. -/
  | write (stream : ℕ) (data : Bytes)
  /-- A stream is closed. -/
  | close (stream : ℕ)
  /-- A stream is discarded. -/
  | discard (stream : ℕ)
  /-- Time passes. -/
  | wait (now : Instant)
  deriving DecidableEq, Repr

/-- The site, where each client stands, and the streams that were given out. -/
structure Scene where
  /-- The mounts. -/
  registry : Registry
  /-- The most links that one path may lead through. -/
  maxLinks : ℕ
  /-- Where each client stands. -/
  standpoint : ℕ → Standpoint
  /-- What the mounts are backed by. -/
  site : Site
  /-- The output streams, in the order in which they were given out. -/
  streams : List (OutputStream × Sink) := []

namespace Scene

/-- What a request of one client works with. -/
def session (scene : Scene) (client : ℕ) : Session :=
  ⟨scene.registry, scene.maxLinks, scene.standpoint client⟩

/-- Takes note of an answer: a new stream, or where the client now stands. -/
def note (scene : Scene) (client : ℕ) : Answer → Scene
  | .writing stream sink => { scene with streams := scene.streams ++ [(stream, sink)] }
  | .directory p =>
    { scene with standpoint :=
        Function.update scene.standpoint client ⟨p, (scene.standpoint client).capability⟩ }
  | _ => scene

/-- Does something to a stream, if it is one that was given out. -/
def useStream (scene : Scene) (stream : ℕ)
    (use : Sink → OutputStream.Writing Site Unit) : Except Error Answer × Scene :=
  match scene.streams[stream]? with
  | none => (.ok .done, scene)
  | some (s, sink) =>
    let (r, s, site) := (use sink).eval (s, scene.site)
    (r.map fun _ => .done, { scene with site, streams := scene.streams.set stream (s, sink) })

/-- One deed, and its answer. -/
def step (scene : Scene) : Deed → Except Error Answer × Scene
  | .request client q =>
    match (q.work (scene.session client)).eval scene.site with
    | (.ok answer, site) => (.ok answer, { scene with site }.note client answer)
    | (.error e, site) => (.error e, { scene with site })
  | .write stream data => scene.useStream stream fun _ => do let _ ← OutputStream.write data
  | .close stream => scene.useStream stream fun sink => OutputStream.close sink.commit
  | .discard stream => scene.useStream stream fun _ => OutputStream.discard
  | .wait now => (.ok .done, { scene with site := { scene.site with now } })

/-- The scene after a deed. -/
def after (scene : Scene) (deed : Deed) : Scene := (scene.step deed).2

/-- The scene after deeds, done one after the other. -/
def run (scene : Scene) (deeds : List Deed) : Scene := deeds.foldl after scene

theorem run_concat (scene : Scene) (deeds : List Deed) (deed : Deed) :
    scene.run (deeds ++ [deed]) = (scene.run deeds).after deed := by
  simp [run]

/-- How a history begins: every client is at the root of its default backend, and no stream has
been given out. -/
structure Opening (scene : Scene) : Prop where
  standpoint : ∀ client, (scene.standpoint client).workingDirectory =
    (scene.standpoint client).capability.rootPath
  streams : scene.streams = []

end Scene

end MountSpace
