import MountSpace.Proofs.Session.ExactHistory
import MountSpace.Proofs.Session.Interchange

/-!
# Histories of two stores

Everything that is done to a directory of a host without limits can be done to a table, and comes to
the same: each deed gives the same answer, times aside, or fails with an error of the same kind, and
in the end both hold the same paths with the same kinds, contents and link texts.

Three things can tell the two apart, and a history must keep clear of them.  Names may have capitals
or a blank at the end, which a table takes for other names.  A stream may be open while something
else is asked for, so that closing it finds its file gone.  And paths may become too long to be
read, which a table minds when they come about and a host only when they are read.

## Main definitions

* `Mild` — a name without a blank at its end and without capitals.
* `Scene.Modest` — deeds that wait for streams to be closed and keep paths short.
* `Scene.Twins` — a scene with an empty directory, and the same scene with an empty table.
* `Scene.Joined` — the invariant: both stores keep one catalogue, and open streams lead to files.

Main statement: `Scene.interchange_run`.
-/

namespace MountSpace

open MountSpace.Path

/-! ## Names -/

/-- A name without a blank at its end and without capitals. -/
def Mild (n : String) : Prop := ¬EndsBlank n ∧ n.toList.any Char.isUpper = false

instance : DecidablePred Mild := fun n =>
  inferInstanceAs (Decidable (¬EndsBlank n ∧ n.toList.any Char.isUpper = false))

theorem toLower_of_not_isUpper {ch : Char} (h : ch.isUpper = false) : ch.toLower = ch := by
  unfold Char.toLower
  exact dif_neg (of_decide_eq_false h)

/-- Names that were read are neither too long nor hold refused characters. -/
theorem says_tame {text : String} (h : Says Mild text) : Says Tame text := by
  intro p hp n hn
  obtain ⟨hshort, hclean⟩ := clean_of_parse (mapError_eq_ok.mp hp) n hn
  obtain ⟨hblank, hupper⟩ := h p hp n hn
  refine ⟨hblank, ?_, hshort, hclean⟩
  rw [List.any_eq_false] at hupper
  refine (List.map_congr_left fun ch hch => ?_).trans (List.map_id _)
  exact toLower_of_not_isUpper (Bool.eq_false_iff.mpr (hupper ch hch))

theorem Request.Among.tame {q : Request} {reg : Registry} (h : q.Among Mild reg) :
    q.Among Tame reg where
  paths raw hraw := says_tame (h.paths raw hraw)
  target raw hraw t ht m hm := says_tame (h.target raw hraw t ht m hm)

/-! ## Streams side by side -/

section Forall₂

variable {α β : Type} {R : α → β → Prop} {l : List α} {l' : List β}

theorem forall₂_set (h : List.Forall₂ R l l') {a : α} {b : β} (hab : R a b) (i : ℕ) :
    List.Forall₂ R (l.set i a) (l'.set i b) := by
  induction h generalizing i with
  | nil => exact .nil
  | cons hhead htail ih =>
    cases i with
    | zero => exact .cons hab htail
    | succ i => exact .cons hhead (ih i)

theorem getElem?_cases_of_forall₂ (h : List.Forall₂ R l l') (i : ℕ) :
    (l[i]? = none ∧ l'[i]? = none) ∨ ∃ a b, l[i]? = some a ∧ l'[i]? = some b ∧ R a b := by
  induction h generalizing i with
  | nil => exact .inl ⟨rfl, rfl⟩
  | cons hhead _ ih =>
    cases i with
    | zero => exact .inr ⟨_, _, rfl, rfl, hhead⟩
    | succ i => exact ih i

end Forall₂

variable {mx my : Mount} {c c' : Catalogue} {host : String} {T : TableName}

/-- Two streams with the same bytes; as long as they are open, they lead to a file. -/
def Sink.Paired (mx my : Mount) (c : Catalogue) (entry entry' : OutputStream × Sink) : Prop :=
  entry'.1 = entry.1 ∧ (entry.1.closed = false → entry.2.Joint mx my c entry'.2)

/-- Putting a file where one was kept leaves streams leading to files. -/
theorem Sink.Joint.put {k k' : Sink} (h : k.Joint mx my c k') {names : List String} {data : Bytes}
    (hroom : c.Room names (.file data)) : k.Joint mx my (.put names (.file data) hroom) k' := by
  obtain ⟨hleft, hright, hpath, hmode, other, content, hother, hnode⟩ := h
  refine ⟨hleft, hright, hpath, hmode, other, if other = names then data else content, hother, ?_⟩
  rw [Catalogue.node?_put]
  split
  · rfl
  · exact hnode

/-- **Bytes are handed over alike.** -/
theorem Sink.Joint.commit {sink sink' : Sink} (h : sink.Joint mx my c sink') {siteX siteY : Site}
    (hx : mx.Shows siteX c) (hy : my.Shows siteY c) (data : Bytes) :
    ∃ c', mx.Yields siteX (sink.commit data) () c' ∧ my.Yields siteY (sink'.commit data) () c' ∧
      ∀ {k k' : Sink}, k.Joint mx my c k' → k.Joint mx my c' k' := by
  obtain ⟨rfl, rfl, hpath, hmode, names, content, hnames, hnode⟩ := h
  have hs := c.storable names (by simp [hnode])
  have hroom : ∀ new, c.Room names (.file new) := fun new =>
    .of_free hs (c.directory_of_dropLast (by simp [hnode])) (by simp [hnode])
      fun text htext => nomatch htext
  have hold : c.node? names = none ∨
      true = true ∧ ∃ content, c.node? names = some (.file content) := .inr ⟨rfl, content, hnode⟩
  unfold Sink.commit
  rw [hpath, hmode, hnames]
  cases sink.mode with
  | replace =>
    exact ⟨_, (hx.write (hroom data) hold).within, (hy.write (hroom data) hold).within,
      fun hk => hk.put _⟩
  | extend =>
    exact ⟨_, (hx.append hs hnode (hroom _)).within, (hy.append hs hnode (hroom _)).within,
      fun hk => hk.put _⟩

/-- A stream passes into another state, and what leads to a file goes on leading to one; it is not
opened again. -/
structure OutputStream.Passes (mx my : Mount) (c c' : Catalogue) (s s' : OutputStream)
    (siteX siteY : Site) : Prop where
  left : mx.Shows siteX c'
  right : my.Shows siteY c'
  kept : ∀ {k k' : Sink}, k.Joint mx my c k' → k.Joint mx my c' k'
  opened : s'.closed = false → s.closed = false

/-- What is kept does not depend on the time. -/
theorem Mount.Shows.wait {m : Mount} {site : Site} (h : m.Shows site c) (now : Instant) :
    m.Shows { site with now } c := by
  cases h with
  | disk hs h =>
    refine .disk hs (Scene.disk_wait (P := (·.Shows c)) (fun now' _ hd => ?_) site now h)
    exact absurd hd.homed (Disk.not_homed_homeless {} now')
  | table hT h => exact .table hT h

/-! ## Deeds that are allowed -/

/-- The path at the end of the path that a text names is short enough to be read. -/
def Session.EndsShort (s : Session) (site : Site) (follow : Bool) (raw : String) : Prop :=
  ∀ path r, s.qualified (.text raw) = .ok path → s.Resolves site path follow r →
    r.path.localText.length ≤ maxTextLength

instance (s : Session) (site : Site) (follow : Bool) (raw : String) :
    Decidable (s.EndsShort site follow raw) :=
  match hq : s.qualified (.text raw) with
  | .error e => .isTrue (by simp [Session.EndsShort, hq])
  | .ok path =>
    match hr : (s.trace site path follow).outcome with
    | .error e => .isTrue fun other r hother hend => by
      cases hq.symm.trans hother
      cases hr.symm.trans hend
    | .ok r => decidable_of_iff (r.path.localText.length ≤ maxTextLength)
      ⟨fun hle other r' hother hend => by
        cases hq.symm.trans hother
        cases hr.symm.trans hend
        exact hle, fun h => h path r hq hr⟩

namespace Scene

/-- A request comes when all streams are closed, and its paths end where paths can be read. -/
def Allows (scene : Scene) : Deed → Prop
  | .request client q => (∀ entry ∈ scene.streams, entry.1.closed = true) ∧
      ∀ raw ∈ q.paths, (scene.session client).EndsShort scene.site q.follows raw
  | _ => True

instance (scene : Scene) : DecidablePred scene.Allows
  | .request client q => inferInstanceAs (Decidable (
      (∀ entry ∈ scene.streams, entry.1.closed = true) ∧
        ∀ raw ∈ q.paths, (scene.session client).EndsShort scene.site q.follows raw))
  | .write .. | .close _ | .discard _ | .wait _ => .isTrue trivial

/-- All deeds are allowed when they come, and no path on the disk becomes too long to be read. -/
def Modest (host : String) : Scene → List Deed → Prop
  | _, [] => True
  | scene, deed :: deeds => scene.Allows deed ∧ ¬((scene.after deed).site.disk host).Overlong ∧
      (scene.after deed).Modest host deeds

instance decidableModest (host : String) : (scene : Scene) → (deeds : List Deed) →
    Decidable (scene.Modest host deeds)
  | _, [] => .isTrue trivial
  | scene, deed :: deeds =>
    have := decidableModest host (scene.after deed) deeds
    inferInstanceAs (Decidable (scene.Allows deed ∧
      ¬((scene.after deed).site.disk host).Overlong ∧ (scene.after deed).Modest host deeds))

/-- The answers to deeds, done one after the other. -/
def answers : Scene → List Deed → List (Except Error Answer)
  | _, [] => []
  | scene, deed :: deeds => (scene.step deed).1 :: (scene.after deed).answers deeds

/-! ## The invariant -/

/-- Both stores keep one catalogue, the clients stand at the same tame paths, and streams that are
open lead to files. -/
structure Joined (x y : Scene) (mx my : Mount) (c : Catalogue) : Prop where
  left : x.registry.mounts = [mx]
  right : y.registry.mounts = [my]
  capability : mx.capability = my.capability
  maxLinks : y.maxLinks = x.maxLinks
  standpoint : y.standpoint = x.standpoint
  orderly : x.Orderly
  tame : ∀ client, (x.standpoint client).workingDirectory.Among Tame
  disk : mx.Shows x.site c
  table : my.Shows y.site c
  streams : List.Forall₂ (Sink.Paired mx my c) x.streams y.streams

namespace Joined

variable {x y : Scene} (h : Joined x y mx my c)

include h

theorem counterparts (client : ℕ) : (x.session client).Counterparts (y.session client) mx my where
  left := h.left
  right := h.right
  capability := h.capability
  maxLinks := h.maxLinks
  standpoint := congrFun h.standpoint client
  proper := h.orderly.proper client
  tame := h.tame client

/-- What ends short in one store does so in every store that keeps the catalogue. -/
theorem legible {client : ℕ} {follow : Bool} {raw : String} (hraw : Says Tame raw)
    (hshort : (x.session client).EndsShort x.site follow raw) {path : Path}
    (hpath : (x.session client).qualified (.text raw) = .ok path) :
    (x.session client).Legible mx c path follow := by
  intro site r hsite hr
  have hcounter := (h.counterparts client).refl_left
  have htrace := hcounter.trace h.disk hsite (Session.complete_of_qualified hcounter.proper hpath)
    (Session.among_of_qualified hcounter.tame hraw hpath) follow
  rw [show ((x.session client).trace site path follow).outcome = .ok r from hr] at htrace
  cases hx : ((x.session client).trace x.site path follow).outcome with
  | error e =>
    rw [hx] at htrace
    cases htrace
  | ok found =>
    rw [hx] at htrace
    cases htrace with
    | ok hends =>
      have hlen := hshort path found hpath hx
      rwa [hends.localText_eq, ← hends.path] at hlen

/-- Both stores go over to another catalogue while no stream is open. -/
theorem withSites {siteX siteY : Site} (hclosed : ∀ entry ∈ x.streams, entry.1.closed = true)
    (hx : mx.Shows siteX c') (hy : my.Shows siteY c') :
    Joined { x with site := siteX } { y with site := siteY } mx my c' := by
  refine ⟨h.left, h.right, h.capability, h.maxLinks, h.standpoint,
    ⟨h.orderly.proper, h.orderly.sinks⟩, h.tame, hx, hy, List.forall₂_iff_zip.mpr
      ⟨h.streams.length_eq, fun {entry entry'} hmem => ?_⟩⟩
  refine ⟨(List.forall₂_zip h.streams hmem).1, fun hopen => ?_⟩
  rw [hclosed entry (List.of_mem_zip hmem).1] at hopen
  cases hopen

/-- An answer is taken note of on both sides. -/
theorem note {client : ℕ} {a a' : Answer} (horder : (x.note client a).Orderly)
    (ha : a.Joint mx my a' c) : Joined (x.note client a) (y.note client a') mx my c := by
  obtain ⟨halike, hsink, hamong⟩ := ha
  cases halike with
  | writing s =>
    exact ⟨h.left, h.right, h.capability, h.maxLinks, h.standpoint, horder, h.tame, h.disk,
      h.table, List.rel_append h.streams (.cons ⟨rfl, fun _ => hsink _ _ _ _ rfl rfl⟩ .nil)⟩
  | directory p =>
    refine ⟨h.left, h.right, h.capability, h.maxLinks, ?_, horder, fun other => ?_, h.disk,
      h.table, h.streams⟩
    · dsimp only [Scene.note]
      rw [h.standpoint]
    · by_cases hother : other = client
      · subst hother
        simpa [Scene.note] using hamong p rfl
      · simpa [Scene.note, Function.update_of_ne hother] using h.tame other
  | done | truth | path | entry | entries | reading => exact h

/-- **A request is answered alike** and leaves one catalogue behind. -/
theorem request (hdisk : mx.backend.storage = .disk host)
    (hzero : ∀ char ∈ mx.location.text.toList, char.toNat ≠ 0) {client : ℕ} {q : Request}
    (hq : q.Among Mild x.registry)
    (htimes : ∀ path accessed modified, q ≠ .setTimes path accessed modified)
    (hallows : x.Allows (.request client q))
    (hshort : ¬((x.after (.request client q)).site.disk host).Overlong) :
    ∃ c', Joined (x.after (.request client q)) (y.after (.request client q)) mx my c' ∧
      SameOutcome Answer.Alike (x.step (.request client q)).1 (y.step (.request client q)).1 := by
  have htame := hq.tame
  have hjoint := (h.counterparts client).joint_work hdisk hzero htame
    (fun raw hraw path hpath => h.legible (htame.paths raw hraw) (hallows.2 raw hraw) hpath) htimes
    x.site y.site h.disk h.table
  rw [site_after_request] at hshort
  obtain ⟨c', hx, hy, hout⟩ := hjoint.resolve_left hshort
  have horder := h.orderly.after (.request client q)
  refine ⟨c', ?_⟩
  rw [Scene.after, step] at horder ⊢
  rw [Scene.after, step]
  rcases hwork : (q.work (x.session client)).eval x.site with ⟨r, siteX⟩
  rcases hwork' : (q.work (y.session client)).eval y.site with ⟨r', siteY⟩
  rw [hwork] at hx hout horder
  rw [hwork'] at hy hout
  dsimp only at hx hy hout
  cases hout with
  | ok ha => exact ⟨(h.withSites hallows.1 hx hy).note horder ha, .ok ha.alike⟩
  | error hkind => exact ⟨h.withSites hallows.1 hx hy, .error hkind⟩

/-- A stream that was given out passes into another state on both sides. -/
theorem setStream {stream : ℕ} {s s' : OutputStream} {sink sink' : Sink} {siteX siteY : Site}
    (hstream : x.streams[stream]? = some (s, sink))
    (hsink : s.closed = false → sink.Joint mx my c sink')
    (hpasses : s.Passes mx my c c' s' siteX siteY) :
    Joined { x with site := siteX, streams := x.streams.set stream (s', sink) }
      { y with site := siteY, streams := y.streams.set stream (s', sink') } mx my c' := by
  obtain ⟨hx, hy, hkept, hopen⟩ := hpasses
  refine ⟨h.left, h.right, h.capability, h.maxLinks, h.standpoint,
    ⟨h.orderly.proper, fun entry hentry => ?_⟩, h.tame, hx, hy,
    forall₂_set (h.streams.imp fun entry entry' hpaired => ?_)
      ⟨rfl, fun ho => hkept (hsink (hopen ho))⟩ stream⟩
  · rcases List.mem_or_eq_of_mem_set hentry with hmem | rfl
    · exact h.orderly.sinks entry hmem
    · exact h.orderly.sinks (s, sink) (List.mem_of_getElem? hstream)
  · exact ⟨hpaired.1, fun ho => hkept (hpaired.2 ho)⟩

theorem passes {s s' : OutputStream} (hopen : s'.closed = false → s.closed = false) :
    s.Passes mx my c c s' x.site y.site := ⟨h.disk, h.table, id, hopen⟩

/-- **What is done to a stream is done alike**, if the stream passes into the same state. -/
theorem useStream (stream : ℕ) {use : Sink → OutputStream.Writing Site Unit}
    (huse : ∀ (s : OutputStream) (sink sink' : Sink),
      (s.closed = false → sink.Joint mx my c sink') →
        ∃ c' r s' siteX siteY, (use sink).eval (s, x.site) = (r, s', siteX) ∧
          (use sink').eval (s, y.site) = (r, s', siteY) ∧ s.Passes mx my c c' s' siteX siteY) :
    ∃ c', Joined (x.useStream stream use).2 (y.useStream stream use).2 mx my c' ∧
      SameOutcome Answer.Alike (x.useStream stream use).1 (y.useStream stream use).1 := by
  unfold Scene.useStream
  rcases getElem?_cases_of_forall₂ h.streams stream with
    ⟨hx, hy⟩ | ⟨⟨_, sink⟩, ⟨s, sink'⟩, hx, hy, rfl, hsink⟩
  · rw [hx, hy]
    exact ⟨c, h, .ok .done⟩
  obtain ⟨c', r, s', siteX, siteY, heval, heval', hpasses⟩ := huse s sink sink' hsink
  rw [hx, hy]
  dsimp only
  rw [heval, heval']
  refine ⟨c', h.setStream hx hsink hpasses, ?_⟩
  cases r with
  | ok u => exact .ok .done
  | error e => exact .error rfl

/-- Closing hands the bytes of an open stream over, and leaves a closed one as it is. -/
theorem close (stream : ℕ) :
    ∃ c', Joined (x.after (.close stream)) (y.after (.close stream)) mx my c' ∧
      SameOutcome Answer.Alike (x.step (.close stream)).1 (y.step (.close stream)).1 := by
  refine h.useStream stream fun s sink sink' hsink => ?_
  cases hclosed : s.closed with
  | true =>
    obtain ⟨path, buffer, closed⟩ := s
    obtain rfl : closed = true := hclosed
    exact ⟨c, _, _, x.site, y.site, rfl, rfl, h.passes id⟩
  | false =>
    obtain ⟨c', ⟨siteX, hcommit, hx⟩, ⟨siteY, hcommit', hy⟩, hkept⟩ :=
      (hsink hclosed).commit h.disk h.table s.buffer
    refine ⟨c', .ok (), { s with closed := true, buffer := [] }, siteX, siteY, ?_, ?_, hx, hy,
      hkept, fun _ => hclosed⟩
    · rw [OutputStream.eval_close hclosed, hcommit]
    · rw [OutputStream.eval_close hclosed, hcommit']

/-- Time passes alike. -/
theorem wait (now : Instant) : Joined (x.after (.wait now)) (y.after (.wait now)) mx my c :=
  ⟨h.left, h.right, h.capability, h.maxLinks, h.standpoint, ⟨h.orderly.proper, h.orderly.sinks⟩,
    h.tame, h.disk.wait now, h.table.wait now, h.streams⟩

end Joined

/-- **A deed is done alike** and leaves one catalogue behind. -/
theorem Joined.after {x y : Scene} (h : Joined x y mx my c)
    (hdisk : mx.backend.storage = .disk host)
    (hzero : ∀ char ∈ mx.location.text.toList, char.toNat ≠ 0) {deed : Deed}
    (hdeed : deed.Among Mild x.registry)
    (htimes : ∀ client path accessed modified,
      deed ≠ .request client (.setTimes path accessed modified))
    (hallows : x.Allows deed) (hshort : ¬((x.after deed).site.disk host).Overlong) :
    ∃ c', Joined (x.after deed) (y.after deed) mx my c' ∧
      SameOutcome Answer.Alike (x.step deed).1 (y.step deed).1 := by
  cases deed with
  | request client q =>
    exact h.request hdisk hzero hdeed
      (fun path accessed modified heq => htimes client path accessed modified (by rw [heq]))
      hallows hshort
  | write stream data =>
    refine h.useStream stream fun s _ _ _ => ?_
    obtain ⟨path, buffer, closed⟩ := s
    cases closed <;> exact ⟨c, _, _, x.site, y.site, rfl, rfl, h.passes id⟩
  | close stream => exact h.close stream
  | discard stream =>
    exact h.useStream stream fun s _ _ _ =>
      ⟨c, _, _, x.site, y.site, rfl, rfl, h.passes fun ho => nomatch ho⟩
  | wait now => exact ⟨c, h.wait now, .ok .done⟩

/-- **Deeds are done alike, one after the other.** -/
theorem Joined.run {x y : Scene} (h : Joined x y mx my c)
    (hdisk : mx.backend.storage = .disk host)
    (hzero : ∀ char ∈ mx.location.text.toList, char.toNat ≠ 0) {deeds : List Deed}
    (hdeeds : ∀ deed ∈ deeds, deed.Among Mild x.registry)
    (htimes : ∀ client path accessed modified,
      .request client (.setTimes path accessed modified) ∉ deeds)
    (hmodest : x.Modest host deeds) :
    ∃ c', Joined (x.run deeds) (y.run deeds) mx my c' ∧
      List.Forall₂ (SameOutcome Answer.Alike) (x.answers deeds) (y.answers deeds) := by
  induction deeds generalizing x y c with
  | nil => exact ⟨c, h, .nil⟩
  | cons deed deeds ih =>
    obtain ⟨hallows, hshort, hrest⟩ := hmodest
    obtain ⟨mid, hmid, hanswer⟩ := h.after hdisk hzero (hdeeds deed (by simp))
      (fun client path accessed modified heq =>
        htimes client path accessed modified (by simp [heq])) hallows hshort
    obtain ⟨c', hjoined, hanswers⟩ := ih hmid
      (fun other hother => by
        rw [registry_after]
        exact hdeeds other (by simp [hother]))
      (fun client path accessed modified hmem =>
        htimes client path accessed modified (by simp [hmem])) hrest
    exact ⟨c', hjoined, .cons hanswer hanswers⟩

/-! ## From empty stores -/

/-- Two scenes at their beginning that differ in their single mounts alone: an empty directory of a
host that limits neither names nor link texts in the one, an empty table in the other, with one
capability, whose address is valid text. -/
structure Twins (x y : Scene) (mx my : Mount) (host : String) (T : TableName) : Prop where
  left : x.registry.mounts = [mx]
  right : y.registry.mounts = [my]
  storage : mx.backend.storage = .disk host
  table : my.table? = some T
  capability : mx.capability = my.capability
  address : ∀ char ∈ mx.location.text.toList, char.toNat ≠ 0
  maxLinks : y.maxLinks = x.maxLinks
  standpoint : y.standpoint = x.standpoint
  opening : x.Opening
  streams : y.streams = []
  emptyDirectory : ∃ limits now, limits.nameBytes = none ∧ limits.textBytes = none ∧
    x.site.disk host = .fresh limits now
  emptyTable : (y.site.table T).rows? = some []

theorem Twins.joined {x y : Scene} (h : x.Twins y mx my host T) : Joined x y mx my .empty := by
  obtain ⟨limits, now, hname, htext, hfresh⟩ := h.emptyDirectory
  refine ⟨h.left, h.right, h.capability, h.maxLinks, h.standpoint, h.opening.orderly,
    fun client => ?_, .disk h.storage ?_, .table h.table (Table.shows_of_nil h.emptyTable), ?_⟩
  · rw [h.opening.standpoint]
    exact among_root Tame _
  · rw [hfresh]
    exact Disk.shows_fresh hname htext now
  · rw [h.opening.streams, h.streams]
    exact .nil

/-- **A directory and a table are interchangeable.**  Whatever is done to both, with names that are
mild, times left alone, streams closed before anything else is asked for and no path too long to be
read, gives the same answers, times aside, or errors of the same kinds, and in the end both hold the
same paths with the same kinds, contents and link texts. -/
theorem interchange_run (x y : Scene) (mx my : Mount) (host : String) (T : TableName)
    (htwins : x.Twins y mx my host T) (deeds : List Deed)
    (hdeeds : ∀ deed ∈ deeds, deed.Among Mild x.registry)
    (htimes : ∀ client path accessed modified,
      .request client (.setTimes path accessed modified) ∉ deeds)
    (hmodest : x.Modest host deeds) :
    List.Forall₂ (SameOutcome Answer.Alike) (x.answers deeds) (y.answers deeds) ∧
      SameHoldings ((x.run deeds).site.disk host) ((y.run deeds).site.table T) := by
  obtain ⟨c, hjoined, hanswers⟩ :=
    htwins.joined.run htwins.storage htwins.address hdeeds htimes hmodest
  exact ⟨hanswers, sameHoldings_of_shows (hjoined.disk.disk_shows htwins.storage)
    (hjoined.table.table_shows htwins.table)⟩

/-- Clients at the root of an empty directory of a host without limits, with the capability of
`onTable`. -/
def onFreeHost : Scene :=
  let capability := (onTable.standpoint 0).capability
  { onTable with
    registry := Registry.add {} (.make 0 { storage := .disk "h", capability } none "")
    site := { disks := [("h", Disk.fresh { nameBytes := none, textBytes := none } ⟨0⟩)]
              now := ⟨0⟩ } }

/-- A file is written and read through a link, and moved with its directory. -/
theorem interchange_run_moved :
    let capability := (onTable.standpoint 0).capability
    let mx := Mount.make 0 { storage := .disk "h", capability } none ""
    let my := Mount.make 0 { storage := .table "entries", capability } (some "db") ""
    let T : TableName := ⟨"db", "entries"⟩
    let deeds : List Deed :=
      [.request 0 (.makeDirectory "/d" false), .request 0 (.createFile "/d/f" false false),
        .write 0 [104, 105], .close 0, .request 0 (.makeLink "f" "/d/l" false),
        .request 0 (.openFile "/d/l"), .request 0 (.move "/d" "/e" false),
        .request 0 (.status "/d/f")]
    onFreeHost.Twins onTable mx my "h" T ∧
      (∀ deed ∈ deeds, deed.Among Mild onFreeHost.registry) ∧
      (∀ client path accessed modified,
        .request client (.setTimes path accessed modified) ∉ deeds) ∧
      onFreeHost.Modest "h" deeds ∧
      ((onTable.run deeds).site.table T).rows.map (fun row => (row.path, row.node)) =
        [("/e", .directory), ("/e/f", .file [104, 105]), ("/e/l", .link "f")] ∧
      List.Forall₂ (SameOutcome Answer.Alike) (onFreeHost.answers deeds) (onTable.answers deeds) ∧
      SameHoldings ((onFreeHost.run deeds).site.disk "h") ((onTable.run deeds).site.table T) := by
  intro capability mx my T deeds
  have haddress : mx.location.text.toList.all (·.toNat != 0) = true := by decide +kernel
  have htwins : onFreeHost.Twins onTable mx my "h" T :=
    { left := rfl, right := rfl, storage := rfl, table := rfl, capability := rfl
      address := fun char hchar => bne_iff_ne.mp (List.all_eq_true.mp haddress char hchar)
      maxLinks := rfl, standpoint := rfl, opening := ⟨fun _ => rfl, rfl⟩, streams := rfl
      emptyDirectory := ⟨_, _, rfl, rfl, rfl⟩, emptyTable := rfl }
  have hplain : ∀ m ∈ onFreeHost.registry.mounts, m.capability.location.Plain := by
    intro m hm
    cases List.mem_singleton.mp hm
    exact onTable_plain my (List.mem_singleton.mpr rfl)
  have hgiven : ∀ deed ∈ deeds, ∀ raw ∈ deed.texts,
      Says (fun n => ¬StartsBlank n ∧ Mild n) raw := by decide +kernel
  have hdeeds : ∀ deed ∈ deeds, deed.Among Mild onFreeHost.registry := fun deed hdeed =>
    (Deed.among_of_says (fun _ hn => ⟨hn.1, hn.2.1⟩) hplain (hgiven deed hdeed)).mono
      fun _ hn => hn.2
  have htimes : ∀ client path accessed modified,
      .request client (.setTimes path accessed modified) ∉ deeds := by
    simp [deeds]
  have hmodest : onFreeHost.Modest "h" deeds := by decide +kernel
  exact ⟨htwins, hdeeds, htimes, hmodest, by decide +kernel,
    interchange_run onFreeHost onTable mx my "h" T htwins deeds hdeeds htimes hmodest⟩

end Scene

end MountSpace
