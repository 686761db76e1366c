import MountSpace.Proofs.Session.CatalogueResolve
import MountSpace.Proofs.Session.LinkTargets
import MountSpace.Proofs.Session.Tidy

/-!
# Requests to two stores that keep one catalogue

Whatever a client asks for, the two stores give the same answer, times aside, or failures of one
kind, and keep one catalogue again.  A move is the one request that may bring about paths that are
too long to be read without naming them.

## Main definitions

* `Answer.Alike` — the same answer, but for times and the mount of a stream.
* `Answer.Joint` — and what follows for the catalogue.
* `Session.Asks` — a text that names a path whose end can be read.

Main statement: `Session.Counterparts.joint_work`.
-/

namespace MountSpace

open MountSpace.Path

variable {mx my : Mount} {c c' : Catalogue} {names : List String} {st st' : Status}
variable {node : Node} {follow : Bool} {E : Site → Prop}

/-- Whether a request follows a link in the last place of its paths. -/
def Request.follows : Request → Bool
  | .makeLink .. | .linkTarget .. | .linkStatus .. | .delete .. | .move .. => false
  | _ => true

/-! ## Answers -/

/-- The same answer, but for times and the mount of a stream. -/
inductive Answer.Alike : Answer → Answer → Prop
  | done : Alike .done .done
  | truth (b : Bool) : Alike (.truth b) (.truth b)
  | path (p : Path) : Alike (.path p) (.path p)
  | entry {s s' : Status} (h : s'.untimed = s.untimed) : Alike (.entry s) (.entry s')
  | entries {l l' : List Status} (h : l'.map Status.untimed = l.map Status.untimed) :
      Alike (.entries l) (.entries l')
  | reading (s : InputStream) : Alike (.reading s) (.reading s)
  | writing (s : OutputStream) {sink sink' : Sink} (hpath : sink'.path = sink.path)
      (hmode : sink'.mode = sink.mode) : Alike (.writing s sink) (.writing s sink')
  | directory (p : Path) : Alike (.directory p) (.directory p)

/-- Two ends of a stream, one in each mount, at which the catalogue keeps a file. -/
structure Sink.Joint (mx my : Mount) (c : Catalogue) (sink sink' : Sink) : Prop where
  left : sink.mount = mx
  right : sink'.mount = my
  path : sink'.path = sink.path
  mode : sink'.mode = sink.mode
  file : ∃ names content, sink.path = rootText names ∧ c.node? names = some (.file content)

/-- Answers that are alike: a stream leads to a file, and a directory has a tame path. -/
structure Answer.Joint (mx my : Mount) (a a' : Answer) (c : Catalogue) : Prop where
  alike : a.Alike a'
  sink : ∀ s sink s' sink', a = .writing s sink → a' = .writing s' sink' → sink.Joint mx my c sink'
  among : ∀ p, a = .directory p → p.Among Tame

namespace Answer.Joint

/-- Answers that are alike and give out neither a stream nor a working directory. -/
theorem of_plain {a a' : Answer} (h : a.Alike a') (hw : ∀ s sink, a ≠ .writing s sink)
    (hd : ∀ p, a ≠ .directory p) : Joint mx my a a' c :=
  ⟨h, fun s sink _ _ heq => absurd heq (hw s sink), fun p heq => absurd heq (hd p)⟩

theorem of_done : Joint mx my .done .done c :=
  of_plain .done (fun _ _ heq => nomatch heq) fun _ heq => nomatch heq

theorem of_truth {b b' : Bool} (h : b' = b) : Joint mx my (.truth b) (.truth b') c :=
  of_plain (h ▸ .truth b) (fun _ _ heq => nomatch heq) fun _ heq => nomatch heq

theorem of_path {p p' : Path} (h : p' = p) : Joint mx my (.path p) (.path p') c :=
  of_plain (h ▸ .path p) (fun _ _ heq => nomatch heq) fun _ heq => nomatch heq

theorem of_entry (h : st'.untimed = st.untimed) : Joint mx my (.entry st) (.entry st') c :=
  of_plain (.entry h) (fun _ _ heq => nomatch heq) fun _ heq => nomatch heq

theorem of_entries {l l' : List Status} (h : l'.map Status.untimed = l.map Status.untimed) :
    Joint mx my (.entries l) (.entries l') c :=
  of_plain (.entries h) (fun _ _ heq => nomatch heq) fun _ heq => nomatch heq

theorem of_reading {s s' : InputStream} (h : s' = s) : Joint mx my (.reading s) (.reading s') c :=
  of_plain (h ▸ .reading s) (fun _ _ heq => nomatch heq) fun _ heq => nomatch heq

theorem of_writing {s s' : OutputStream} {sink sink' : Sink} (hs : s' = s)
    (h : sink.Joint mx my c sink') : Joint mx my (.writing s sink) (.writing s' sink') c where
  alike := hs ▸ .writing s h.path h.mode
  sink _ _ _ _ heq heq' := by
    cases heq
    cases heq'
    exact h
  among _ heq := nomatch heq

theorem of_directory {p p' : Path} (hp : p' = p) (h : p.Among Tame) :
    Joint mx my (.directory p) (.directory p') c where
  alike := hp ▸ .directory p
  sink _ _ _ _ heq := nomatch heq
  among _ heq := by
    cases heq
    exact h

end Answer.Joint

/-! ## Parts of requests -/

theorem Catalogue.Ends.directory_of_found {r r' : Resolution} (h : c.Ends follow mx my r r')
    (hr : r.status = some st) (hdir : st.kind = .directory) :
    c.node? r.path.segments = some .directory := by
  obtain ⟨node, hnode, htold⟩ := h.found st hr
  rwa [(Node.kind_eq_directory_iff htold).mp hdir] at hnode

/-- Where something is found that is neither a directory nor a link to follow, there is a file. -/
theorem Catalogue.Ends.file_of_found {r r' : Resolution} (h : c.Ends follow mx my r r')
    (hr : r.status = some st) (hfollow : follow = true) (hfile : st.kind ≠ .directory) :
    ∃ content, c.node? r.path.segments = some (.file content) := by
  obtain ⟨node, hnode, htold⟩ := h.found st hr
  rcases Node.told_cases htold with ⟨content, rfl, -⟩ | ⟨-, hk⟩ | ⟨text, -, rfl, -⟩
  · exact ⟨content, hnode⟩
  · exact absurd hk hfile
  · exact absurd hnode (h.settled hfollow text)

theorem kind_of_untimed (h : st'.untimed = st.untimed) : st'.kind = st.kind := by
  simpa using congrArg Status.kind h

theorem target_of_untimed (h : st'.untimed = st.untimed) : st'.target = st.target := by
  simpa using congrArg Status.target h

theorem Session.located_untimed (st : Status) (p : Path) :
    Status.untimed <$> Session.located st p = Session.located st.untimed p := by
  unfold Session.located
  rw [Status.untimed_kind, Status.untimed_target]
  split
  · rename_i target _ _
    cases Session.qualifyTarget p target <;> rfl
  · rfl

/-- An entry is reported alike under its complete path. -/
theorem Session.located_same (h : st'.untimed = st.untimed) (p : Path) :
    SameOutcome (fun a a' => a'.untimed = a.untimed) (Session.located st p)
      (Session.located st' p) := by
  refine (SameOutcome.of_map_eq ?_).mono fun _ _ hsame => hsame.symm
  rw [Session.located_untimed, Session.located_untimed, h]

theorem Mount.isAncestorOf_place {m : Mount} {S D : List String} :
    (m.place S).isAncestorOf (m.place D) = true ↔ S <+: D ∧ S ≠ D := by
  rw [Path.isAncestorOf_iff, and_iff_right (by simp), Mount.place_segments, Mount.place_segments]
  constructor
  · rintro ⟨rest, hne, rfl⟩
    exact ⟨List.prefix_append _ _, by simpa using hne⟩
  · rintro ⟨⟨rest, rfl⟩, hne⟩
    exact ⟨rest, by simpa using hne, rfl⟩

namespace Session

/-! ### Looking -/

theorem forall₂_untimed_iff {l l' : List Status} :
    List.Forall₂ (fun st st' => st'.untimed = st.untimed) l l' ↔
      l'.map Status.untimed = l.map Status.untimed := by
  rw [eq_comm, ← List.forall₂_eq_eq_eq, List.forall₂_map_left_iff, List.forall₂_map_right_iff]
  simp only [eq_comm]

section Looking

variable {r r' : Resolution} (hends : c.Ends follow mx my r r') (hs : Storable r.path.segments)

include hends hs

theorem joint_list (hdir : c.node? r.path.segments = some .directory) :
    Work.Joint mx my E c
      (fun l l' c' => c = c' ∧ l'.map Status.untimed = l.map Status.untimed ∧
        c.Lists r.path.segments (.ok l))
      (r.mount.within fun k => k.list r.path.localText)
      (r'.mount.within fun k => k.list r'.path.localText) := by
  rw [hends.left, hends.right, hends.path, hends.localText_eq]
  intro x y hx hy
  obtain ⟨l, hl, hlists⟩ := hx.list hs hdir
  obtain ⟨l', hl', hlists'⟩ := hy.list hs hdir
  rw [Mount.eval_within_of_same hl, Mount.eval_within_of_same hl']
  refine .inr ⟨c, hx, hy, (hlists.same hlists').mono_of_ok ?_⟩
  rintro l l' rfl hsame
  exact ⟨rfl, hsame.symm, hlists⟩

theorem joint_content {content : Bytes} (hnode : c.node? r.path.segments = some (.file content)) :
    Work.Joint mx my E c (fun data data' c' => c = c' ∧ data' = data)
      (r.mount.within fun k => k.content r.path.localText)
      (r'.mount.within fun k => k.content r'.path.localText) := by
  rw [hends.left, hends.right, hends.path, hends.localText_eq]
  exact Work.joint_of_yields (fun x hx => ⟨x, hx.content_eq hs hnode, hx⟩)
    (fun y hy => ⟨y, hy.content_eq hs hnode, hy⟩) ⟨rfl, rfl⟩

theorem joint_hasChildren (hdir : c.node? r.path.segments = some .directory) :
    Work.Joint mx my E c
      (fun any any' c' => c = c' ∧ any' = any ∧
        (any = false → ∀ name, c.node? (r.path.segments ++ [name]) = none))
      (hasChildren r) (hasChildren r') := by
  refine Work.Joint.of_eval ((joint_list hends hs hdir).map (i := fun l => !l.isEmpty)
    (j := fun l => !l.isEmpty) ?_) (fun x => Mount.eval_within_map _ _ x)
    fun y => Mount.eval_within_map _ _ y
  rintro l l' _ ⟨rfl, hsame, hlists⟩
  have hempty : l'.isEmpty = l.isEmpty := by
    rw [← List.isEmpty_map (f := Status.untimed), hsame, List.isEmpty_map]
  refine ⟨rfl, by rw [hempty], fun hnone name => ?_⟩
  obtain rfl : l = [] := by simpa using hnone
  exact hlists.none_of_nil name

end Looking

/-! ### Link targets -/

/-- A path with names that were read holds no zero character. -/
theorem no_zero_text {p : Path} (hl : p.location.Plain) (hp : Clean p.segments) :
    ∀ char ∈ p.text.toList, char.toNat ≠ 0 := by
  intro char hmem hnul
  have hrefused := isRefused_text hl hp char hmem
  simp [isRefused, hnul] at hrefused

/-- A target that was read holds no zero character as it is stored, if the location of the mount
holds none. -/
theorem no_zero_attach {capability : Capability} {target : String} {p : Path}
    (hp : Path.read target = .ok p)
    (hzero : ∀ char ∈ capability.location.text.toList, char.toNat ≠ 0) :
    ∀ char ∈ (capability.attach p).text.toList, char.toNat ≠ 0 := by
  have hparse := mapError_eq_ok.mp hp
  have hclean : Clean p.segments := clean_of_parse hparse
  unfold Capability.attach
  split
  · intro char hmem
    rw [Path.text, String.toList_append] at hmem
    rcases List.mem_append.mp hmem with hmem | hmem
    · exact hzero char hmem
    · refine no_zero_text (p := ⟨{}, p.segments, p.absolute⟩) ⟨by simp, by simp⟩ hclean char ?_
      rw [Path.text, String.toList_append]
      exact List.mem_append_right _ hmem
  · exact no_zero_text (plain_of_parse hparse) hclean

/-! ### Making directories -/

/-- Every mount makes a directory on a way, if there is none. -/
theorem exists_stepped (hs : Storable names) (hdir : c.node? names.dropLast = some .directory)
    (hway : c.node? names = some .directory ∨ c.node? names = none) :
    ∃ c' : Catalogue, c'.node? names = some .directory ∧
      (∀ other, other ≠ names → c'.node? other = c.node? other) ∧
      ∀ (m : Mount) (site : Site), m.Shows site c → m.Yields site (do
        if (← m.connection.status (rootText names)).isNone then
          m.connection.makeDirectory (rootText names)) () c' := by
  rcases hway with hthere | hnone
  · have hstatus : c.status names =
        .ok (some ⟨⟨{}, names, true⟩, .directory, 0, none, none, none⟩) := by
      simp only [Catalogue.status, hs.read, hthere]
      rfl
    refine ⟨c, hthere, fun _ _ => rfl, fun m site hshows => ?_⟩
    obtain ⟨timed, heval, hsame⟩ := hshows.exists_status hs.neat hdir hstatus
    obtain ⟨st, rfl, -⟩ := Option.map_eq_some_iff.mp hsame
    refine ⟨site, ?_, hshows⟩
    rw [Action.eval_bind, heval]
    rfl
  · have hstatus : c.status names = .ok none := by
      simp only [Catalogue.status, hs.read, hnone]
      rfl
    have hroom : c.Room names .directory :=
      .of_free hs hdir (by simp [hnone]) fun text htext => nomatch htext
    refine ⟨.put names .directory hroom, by rw [Catalogue.node?_put, if_pos rfl],
      fun other hne => by rw [Catalogue.node?_put, if_neg hne], fun m site hshows => ?_⟩
    obtain ⟨timed, heval, hsame⟩ := hshows.exists_status hs.neat hdir hstatus
    obtain rfl : timed = none := by simpa using hsame
    obtain ⟨after, hmake, hafter⟩ := hshows.makeDirectory hroom hnone
    refine ⟨after, ?_, hafter⟩
    rw [Action.eval_bind, heval]
    exact hmake

/-- The directories on a way are made one after the other. -/
theorem eval_makeDirectories_cons (m : Mount) {done : List String} {name : String}
    (ho : ∀ n ∈ done ++ [name], Ordinary n) (rest : List String) (site : Site) :
    (makeDirectories m.connection (m.place done) (name :: rest)).eval site = ((do
      if (← m.connection.status (rootText (done ++ [name]))).isNone then
        m.connection.makeDirectory (rootText (done ++ [name]))) >>= fun _ =>
          makeDirectories m.connection (m.place (done ++ [name])) rest).eval site := by
  have hplace : (m.place done).child [name] = m.place (done ++ [name]) :=
    m.place_child (fun n hn => ho n (by simp [hn])) fun n hn => ho n (List.mem_append_right _ hn)
  have hlocal : (m.place (done ++ [name])).localText = rootText (done ++ [name]) := rfl
  rw [makeDirectories, hplace]
  simp only [Action.eval_bind, hlocal]
  rcases (m.connection.status (rootText (done ++ [name]))).eval site with ⟨e | found, u⟩
  · rfl
  · cases found with
    | some st => rfl
    | none =>
      dsimp only [Option.isNone]
      rw [if_pos rfl, if_pos rfl, Action.eval_bind]

/-- The directories on a way are made as far as they are missing, by every mount alike. -/
theorem exists_furnished (done : List String) (hdone : c.node? done = some .directory)
    (hs : Storable (done ++ names))
    (hway : ∀ front, front <+: names →
      c.node? (done ++ front) = some .directory ∨ c.node? (done ++ front) = none) :
    ∃ c' : Catalogue, c'.node? (done ++ names) = some .directory ∧
      (∀ other, ¬other <+: done ++ names → c'.node? other = c.node? other) ∧
      ∀ (m : Mount) (site : Site), m.Shows site c →
        m.Yields site (makeDirectories m.connection (m.place done) names) () c' := by
  induction names generalizing c done with
  | nil =>
    rw [List.append_nil]
    exact ⟨c, hdone, fun _ _ => rfl, fun m site hshows => ⟨site, rfl, hshows⟩⟩
  | cons name rest ih =>
    have hhere : done ++ name :: rest = (done ++ [name]) ++ rest := by simp
    rw [hhere] at hs ⊢
    have hstorable : Storable (done ++ [name]) := hs.of_prefix (List.prefix_append _ _)
    obtain ⟨mid, hmid, hkept, hstep⟩ := exists_stepped hstorable
      (by rwa [List.dropLast_concat]) (hway [name] (by simp))
    have hnext : ∀ front, front <+: rest → mid.node? ((done ++ [name]) ++ front) =
        some .directory ∨ mid.node? ((done ++ [name]) ++ front) = none := by
      intro front hfront
      by_cases hnil : front = []
      · rw [hnil, List.append_nil]
        exact .inl hmid
      · rw [hkept _ (by simpa using hnil), List.append_assoc]
        exact hway (name :: front) (by simpa using hfront)
    obtain ⟨c', hdir, hframe, hmake⟩ := ih (done ++ [name]) hmid hs hnext
    refine ⟨c', hdir, fun other hother => ?_, fun m site hshows => ?_⟩
    · rw [hframe other hother, hkept other]
      rintro rfl
      exact hother (List.prefix_append _ _)
    · have ho : ∀ n ∈ done ++ [name], Ordinary n := hstorable.neat.ordinary
      obtain ⟨after, heval, hafter⟩ := (hstep m site hshows).bind
        (f := fun _ => makeDirectories m.connection (m.place (done ++ [name])) rest)
        fun start hstart => hmake m start hstart
      exact ⟨after, (eval_makeDirectories_cons m ho rest site).trans heval, hafter⟩

/-- What is listed is reported alike, and in the same order. -/
theorem joint_report_entries {entries entries' : List Status}
    (hsame : entries'.map Status.untimed = entries.map Status.untimed) (dir : Path) :
    Work.Joint mx my E c (fun l l' _ => l'.map Status.untimed = l.map Status.untimed)
      (do
        let found ← .ofExcept (entries.mapM fun e => located e (dir.child [e.path.name]))
        return found.mergeSort fun a b => a.path.name ≤ b.path.name)
      (do
        let found ← .ofExcept (entries'.mapM fun e => located e (dir.child [e.path.name]))
        return found.mergeSort fun a b => a.path.name ≤ b.path.name) := by
  have hmapM : SameOutcome (fun l l' => l'.map Status.untimed = l.map Status.untimed)
      (entries.mapM fun e => located e (dir.child [e.path.name]))
      (entries'.mapM fun e => located e (dir.child [e.path.name])) := by
    refine (SameOutcome.mapM (S := fun a a' => a'.untimed = a.untimed)
      (forall₂_untimed_iff.mpr hsame) fun st st' hst => ?_).mono fun _ _ => forall₂_untimed_iff.mp
    rw [← Status.untimed_path st', hst, Status.untimed_path]
    exact located_same hst _
  refine (Work.joint_ofExcept (R := fun l l' _ => l'.map Status.untimed = l.map Status.untimed)
    hmapM).bind fun l l' _ hl => Work.joint_pure ?_
  have hsorted : ∀ l : List Status,
      (l.mergeSort fun a b => a.path.name ≤ b.path.name).map Status.untimed =
        (l.map Status.untimed).mergeSort fun a b => a.path.name ≤ b.path.name :=
    fun l => List.map_mergeSort fun a _ b _ => rfl
  rw [hsorted, hsorted, hl]

/-- A text that names a path with tame names, at whose end a path stands that can be read. -/
structure Asks (s : Session) (m : Mount) (c : Catalogue) (follow : Bool) (raw : String) :
    Prop where
  tame : Says Tame raw
  legible : ∀ path, s.qualified (.text raw) = .ok path → s.Legible m c path follow

namespace Counterparts

variable {s t : Session} {raw : String} {α β γ δ : Type} {R : α → β → Catalogue → Prop}
variable (h : s.Counterparts t mx my)

include h

/-- A new entry gets a directory in both stores, or in neither. -/
theorem joint_prepareParent {r r' : Resolution} (hends : c.Ends follow mx my r r')
    (hs : Storable r.path.segments) (hnone : r.status = none) (asked : Path)
    (createParent : Bool) : Work.Joint mx my E c
      (fun _ _ c' => c'.node? r.path.segments.dropLast = some .directory ∧
        c'.node? r.path.segments = none)
      (prepareParent r asked createParent) (prepareParent r' asked createParent) := by
  have hfree := hends.missing hnone
  unfold prepareParent
  rw [hends.parentExists]
  refine .ite Iff.rfl (fun hp => Work.joint_pure ⟨hends.parent.mp hp, hfree⟩) fun _ =>
    .ite Iff.rfl (fun _ => ?_) fun _ => Work.joint_throw rfl
  have hne : r.path.segments ≠ [] := c.ne_nil_of_free (by simp [hfree])
  obtain ⟨front, last, hsplit⟩ := (List.eq_nil_or_concat' r.path.segments).resolve_left hne
  have hway := hends.way
  rw [hsplit] at hs hfree hway ⊢
  rw [List.dropLast_concat] at hway ⊢
  obtain ⟨c', hdir, hframe, hmake⟩ := exists_furnished [] c.root
    (hs.of_prefix (List.prefix_append front [last])) hway
  unfold makeParents
  rw [hends.path, hends.left, hends.right, hends.place, hsplit, mx.place_parent?]
  have hkept : c'.node? (front ++ [last]) = none := by
    rw [hframe, hfree]
    intro hp
    have hlen := hp.length_le
    rw [List.length_append, List.length_singleton, List.nil_append] at hlen
    omega
  have hright : ∀ y, my.Shows y c → my.Yields y
      (my.within fun k => makeDirectories k (mx.place []) front) () c' := fun y hy => by
    have hyields := hmake my y hy
    rw [h.place] at hyields
    exact hyields.within
  exact Work.joint_of_yields (fun x hx => (hmake mx x hx).within) hright ⟨hdir, hkept⟩

/-- A text is completed alike. -/
theorem joint_qualified (ha : s.Asks mx c follow raw) {f : Path → Work γ} {g : Path → Work δ}
    {S : γ → δ → Catalogue → Prop}
    (hf : ∀ path, path.Complete → path.Among Tame → s.Legible mx c path follow →
      Work.Joint mx my E c S (f path) (g path)) :
    Work.Joint mx my E c S (Action.ofExcept (s.qualified (.text raw)) >>= f)
      (Action.ofExcept (t.qualified (.text raw)) >>= g) := by
  rw [h.qualified]
  cases hq : s.qualified (.text raw) with
  | error e => exact Work.joint_throw rfl
  | ok path =>
    exact hf path (complete_of_qualified h.proper hq) (among_of_qualified h.tame ha.tame hq)
      (ha.legible path hq)

/-! ### Requests that read -/

theorem joint_linkTarget (ha : s.Asks mx c false raw) : Work.Joint mx my E c
    (fun p p' _ => p' = p) (s.linkTarget (.text raw)) (t.linkTarget (.text raw)) := by
  refine h.joint_qualified ha fun path hp hn hl => (h.joint_require hp hn hl).bind ?_
  rintro ⟨r, st⟩ ⟨r', st'⟩ _ ⟨rfl, -, -, -, -, hst⟩
  dsimp only at hst ⊢
  rw [kind_of_untimed hst, target_of_untimed hst]
  split
  · exact Work.joint_pure rfl
  · exact Work.joint_throw rfl

theorem joint_status (ha : s.Asks mx c true raw) : Work.Joint mx my E c
    (fun st st' _ => st'.untimed = st.untimed) (s.status (.text raw)) (t.status (.text raw)) := by
  refine h.joint_qualified ha fun path hp hn hl => (h.joint_require hp hn hl).bind ?_
  rintro ⟨r, st⟩ ⟨r', st'⟩ _ ⟨rfl, hends, -, -, -, hst⟩
  dsimp only at hends ⊢
  rw [hends.path]
  exact Work.joint_ofExcept (located_same hst r.path)

theorem joint_linkStatus (ha : s.Asks mx c false raw) : Work.Joint mx my E c
    (fun st st' _ => st'.untimed = st.untimed) (s.linkStatus (.text raw))
    (t.linkStatus (.text raw)) := by
  refine h.joint_qualified ha fun path hp hn hl => (h.joint_require hp hn hl).bind ?_
  rintro ⟨r, st⟩ ⟨r', st'⟩ _ ⟨rfl, hends, -, -, -, hst⟩
  dsimp only at hends ⊢
  rw [hends.path]
  exact Work.joint_ofExcept (located_same hst r.path)

theorem joint_exists (ha : s.Asks mx c true raw) : Work.Joint mx my E c
    (fun b b' _ => b' = b) (s.exists_ (.text raw)) (t.exists_ (.text raw)) := by
  have hfound : Work.Joint mx my (fun _ => False) c
      (fun r r' _ => r'.status.isSome = r.status.isSome)
      (do let path ← .ofExcept (s.qualified (.text raw)); s.resolve path true)
      (do let path ← .ofExcept (t.qualified (.text raw)); t.resolve path true) :=
    h.joint_qualified ha fun path hp hn hl => (h.joint_resolve hp hn hl).mono
      fun r r' _ hr => by simpa using congrArg Option.isSome hr.2.1.status
  refine hfound.attempt.bind ?_
  rintro found found' c' hsame
  cases hsame with
  | ok hsame => exact Work.joint_pure hsame
  | error hkind =>
    exact .ite (by rw [hkind]) (fun _ => Work.joint_pure rfl) fun _ => Work.joint_throw hkind

theorem joint_hasKind (kind : Kind) (ha : s.Asks mx c true raw) : Work.Joint mx my E c
    (fun b b' _ => b' = b) (s.hasKind kind (.text raw)) (t.hasKind kind (.text raw)) := by
  refine (h.joint_status ha).attempt.bind ?_
  rintro found found' c' hsame
  cases hsame with
  | ok hst => exact Work.joint_pure (by rw [kind_of_untimed hst])
  | error hkind =>
    exact .ite (by rw [hkind]) (fun _ => Work.joint_pure rfl) fun _ => Work.joint_throw hkind

theorem joint_resolvePath (ha : s.Asks mx c true raw) : Work.Joint mx my E c
    (fun p p' _ => p' = p) (s.resolvePath (.text raw)) (t.resolvePath (.text raw)) := by
  refine h.joint_qualified ha fun path hp hn hl => (h.joint_require hp hn hl).bind ?_
  rintro ⟨r, st⟩ ⟨r', st'⟩ _ ⟨rfl, hends, -⟩
  exact Work.joint_pure hends.path

theorem joint_openFile (ha : s.Asks mx c true raw) : Work.Joint mx my E c
    (fun stream stream' _ => stream' = stream) (s.openFile (.text raw))
    (t.openFile (.text raw)) := by
  refine h.joint_qualified ha fun path hp hn hl => (h.joint_require hp hn hl).bind ?_
  rintro ⟨r, st⟩ ⟨r', st'⟩ _ ⟨rfl, hends, hstorable, hr, hr', hst⟩
  dsimp only at hends hstorable hr hst ⊢
  refine Work.Joint.check (by rw [kind_of_untimed hst]) rfl fun hfile => ?_
  obtain ⟨content, hnode⟩ := hends.file_of_found hr rfl hfile
  refine (joint_content hends hstorable hnode).bind ?_
  rintro data data' _ ⟨-, rfl⟩
  exact Work.joint_pure rfl

theorem joint_changeDirectory (ha : s.Asks mx c true raw) : Work.Joint mx my E c
    (fun p p' _ => p' = p ∧ p.Among Tame) (s.changeDirectory (.text raw))
    (t.changeDirectory (.text raw)) := by
  refine h.joint_qualified ha fun path hp hn hl => (h.joint_require hp hn hl).bind ?_
  rintro ⟨r, st⟩ ⟨r', st'⟩ _ ⟨rfl, hends, -, -, -, hst⟩
  dsimp only at hends hst ⊢
  refine Work.Joint.check (by rw [kind_of_untimed hst]) rfl fun _ => ?_
  refine (Work.joint_ofExcept (R := fun m m' _ => m = mx ∧ m' = my) (h.lookup path path)).bind ?_
  rintro _ _ _ ⟨rfl, rfl⟩
  rw [hends.path, ← h.capability]
  refine Work.joint_pure ⟨rfl, ?_⟩
  split
  · exact fun n hmem => (hends.neat n hmem).2
  · exact hn

theorem joint_appendFile (ha : s.Asks mx c true raw) : Work.Joint mx my E c
    (fun found found' c' => found'.1 = found.1 ∧ found.2.Joint mx my c' found'.2)
    (s.appendFile (.text raw)) (t.appendFile (.text raw)) := by
  refine h.joint_qualified ha fun path hp hn hl => (h.joint_require hp hn hl).bind ?_
  rintro ⟨r, st⟩ ⟨r', st'⟩ _ ⟨rfl, hends, hstorable, hr, hr', hst⟩
  dsimp only at hends hstorable hr hst ⊢
  refine Work.Joint.check (by rw [kind_of_untimed hst]) rfl fun hfile => ?_
  obtain ⟨content, hnode⟩ := hends.file_of_found hr rfl hfile
  exact Work.joint_pure ⟨rfl, hends.left, hends.right, congrArg Path.localText hends.path, rfl,
    _, content, hends.localText_eq, hnode⟩

theorem joint_listing (ha : s.Asks mx c true raw) : Work.Joint mx my E c
    (fun l l' _ => l'.map Status.untimed = l.map Status.untimed) (s.list (.text raw))
    (t.list (.text raw)) := by
  refine h.joint_qualified ha fun path hp hn hl => (h.joint_require hp hn hl).bind ?_
  rintro ⟨r, st⟩ ⟨r', st'⟩ _ ⟨rfl, hends, hstorable, hr, hr', hst⟩
  dsimp only at hends hstorable hr hst ⊢
  refine .ite (by rw [kind_of_untimed hst]) (fun _ => ?_) fun hdir => ?_
  · refine (Work.joint_ofExcept (R := fun a a' _ => a'.untimed = a.untimed) ?_).bind ?_
    · rw [hends.path]
      exact located_same hst r.path
    · exact fun a a' _ ha => Work.joint_pure (by simp [ha])
  · have hnode := hends.directory_of_found hr (by simpa using hdir)
    refine (joint_list hends hstorable hnode).bind ?_
    rintro l l' _ ⟨rfl, hsame, -⟩
    rw [hends.path]
    exact joint_report_entries hsame r.path

/-! ### Requests that write -/

theorem joint_createFile (ha : s.Asks mx c true raw) (overwrite createParent : Bool) :
    Work.Joint mx my E c
      (fun found found' c' => found'.1 = found.1 ∧ found.2.Joint mx my c' found'.2)
      (s.createFile (.text raw) overwrite createParent)
      (t.createFile (.text raw) overwrite createParent) := by
  refine h.joint_qualified ha fun path hp hn hl => (h.joint_resolve hp hn hl).bind ?_
  rintro r r' _ ⟨rfl, hends, hstorable⟩
  -- An empty file is written where there is none, or in the place of another one.
  have hlast : ∀ c' : Catalogue, c'.node? r.path.segments.dropLast = some .directory →
      (c'.node? r.path.segments = none ∨
        overwrite = true ∧ ∃ content, c'.node? r.path.segments = some (.file content)) →
      Work.Joint mx my E c'
        (fun (found found' : OutputStream × Sink) last =>
          found'.1 = found.1 ∧ found.2.Joint mx my last found'.2)
        (do
          r.mount.within fun k => k.write r.path.localText [] overwrite
          return ({ path }, ⟨r.mount, r.path.localText, .replace⟩))
        (do
          r'.mount.within fun k => k.write r'.path.localText [] overwrite
          return ({ path }, ⟨r'.mount, r'.path.localText, .replace⟩)) := by
    intro c' hdir hold
    have hroom : c'.Room r.path.segments (.file []) := by
      refine .of_free hstorable hdir ?_ fun text htext => nomatch htext
      rcases hold with hnone | ⟨-, content, hfile⟩
      · simp [hnone]
      · simp [hfile]
    rw [hends.left, hends.right, hends.path, hends.localText_eq]
    refine Work.Joint.bind (R := fun _ _ last => last = .put r.path.segments (.file []) hroom)
      (Work.joint_of_yields (fun x hx => (hx.write hroom hold).within)
        (fun y hy => (hy.write hroom hold).within) rfl) ?_
    rintro _ _ _ rfl
    refine Work.joint_pure ⟨rfl, rfl, rfl, rfl, rfl, _, [], rfl, ?_⟩
    rw [Catalogue.node?_put, if_pos rfl]
  rcases hends.status_cases with ⟨hr, hr'⟩ | ⟨st, st', hr, hr', hst⟩ <;> rw [hr, hr']
  · exact (h.joint_prepareParent hends hstorable hr path createParent).bind
      fun _ _ c' hc' => hlast c' hc'.1 (.inl hc'.2)
  · dsimp only
    refine Work.Joint.check (by rw [kind_of_untimed hst]) rfl fun hfile => ?_
    refine Work.Joint.check Iff.rfl rfl fun hover => ?_
    refine hlast _ (hends.parent.mp (hends.parent_of_some hr)) (.inr ⟨by simpa using hover, ?_⟩)
    exact hends.file_of_found hr rfl hfile

theorem joint_makeDirectory (ha : s.Asks mx c true raw) (createParent : Bool) :
    Work.Joint mx my E c (fun _ _ _ => True) (s.makeDirectory (.text raw) createParent)
      (t.makeDirectory (.text raw) createParent) := by
  refine h.joint_qualified ha fun path hp hn hl => (h.joint_resolve hp hn hl).bind ?_
  rintro r r' _ ⟨rfl, hends, hstorable⟩
  rcases hends.status_cases with ⟨hr, hr'⟩ | ⟨st, st', hr, hr', hst⟩ <;> rw [hr, hr']
  · refine (h.joint_prepareParent hends hstorable hr path createParent).bind ?_
    rintro _ _ c' ⟨hdir, hnone⟩
    have hroom : c'.Room r.path.segments .directory :=
      .of_free hstorable hdir (by simp [hnone]) fun text htext => nomatch htext
    rw [hends.left, hends.right, hends.path, hends.localText_eq]
    exact Work.joint_of_yields (fun x hx => (hx.makeDirectory hroom hnone).within)
      (fun y hy => (hy.makeDirectory hroom hnone).within) trivial
  · exact .ite (by rw [kind_of_untimed hst]) (fun _ => Work.joint_pure trivial) fun _ =>
      Work.joint_throw rfl

theorem joint_makeLink (ha : s.Asks mx c false raw) {target : String}
    (htarget : ∀ p, Path.read target = .ok p → Says Tame (mx.capability.attach p).text)
    (hzero : ∀ char ∈ mx.location.text.toList, char.toNat ≠ 0) (createParent : Bool) :
    Work.Joint mx my E c (fun _ _ _ => True) (s.makeLink (.text target) (.text raw) createParent)
      (t.makeLink (.text target) (.text raw) createParent) := by
  refine Work.Joint.check Iff.rfl rfl fun _ => ?_
  have hread : (PathArg.text target).read = Path.read target := rfl
  rw [hread]
  cases hp : Path.read target with
  | error e => exact Work.joint_throw rfl
  | ok p =>
  refine h.joint_qualified ha fun path hp' hn hl => (h.joint_resolve hp' hn hl).bind ?_
  rintro r r' _ ⟨rfl, hends, hstorable⟩
  have hsome : r'.status.isSome = r.status.isSome := by
    simpa using congrArg Option.isSome hends.status
  refine Work.Joint.check (by rw [hsome]) rfl fun hnone => ?_
  refine (h.joint_prepareParent hends hstorable (by simpa using hnone) path createParent).bind ?_
  rintro _ _ c' ⟨hdir, hfree⟩
  have hroom : c'.Room r.path.segments (.link (mx.capability.attach p).text) := by
    refine .of_free hstorable hdir (by simp [hfree]) fun text htext => ?_
    cases htext
    have hnormal : p.Normal := Path.normal_of_parse (mapError_eq_ok.mp hp)
    exact ⟨(mx.capability.attach_normal hnormal).text_ne_empty, htarget p hp⟩
  have hclean := no_zero_attach hp hzero
  rw [hends.left, hends.right, hends.path, hends.localText_eq, ← h.capability]
  refine Work.Joint.bind (R := fun _ _ _ => True)
    (Work.joint_of_yields (fun x hx => (hx.makeLink hroom hfree hclean).within)
      (fun y hy => (hy.makeLink hroom hfree hclean).within) trivial) ?_
  exact fun _ _ _ _ => Work.joint_report _ _ trivial

theorem joint_delete (ha : s.Asks mx c false raw) (recursive : Bool) :
    Work.Joint mx my E c (fun b b' _ => b' = b) (s.delete (.text raw) recursive)
      (t.delete (.text raw) recursive) := by
  refine h.joint_qualified ha fun path hp hn hl => (h.joint_resolve hp hn hl).attempt.bind ?_
  rintro found found' c' hsame
  cases hsame with
  | error hkind =>
    exact .ite (by rw [hkind]) (fun _ => Work.joint_pure rfl) fun _ => Work.joint_throw hkind
  | @ok r r' hends =>
  obtain ⟨rfl, hends, hstorable⟩ := hends
  dsimp only
  rcases hends.status_cases with ⟨hr, hr'⟩ | ⟨st, st', hr, hr', hst⟩ <;> rw [hr, hr']
  · exact Work.joint_pure rfl
  obtain ⟨node, hnode, htold⟩ := hends.found st hr
  refine Work.Joint.check (by rw [hends.path]) rfl fun hroot => ?_
  have hne : r.path.segments ≠ [] := by
    rw [hends.place] at hroot
    simpa [Path.isRoot] using hroot
  have hlast : (node = .directory → recursive = true ∨
      ∀ name, c.node? (r.path.segments ++ [name]) = none) →
      Work.Joint mx my E c (fun b b' _ => b' = b)
        (r.mount.within fun k => k.delete r.path.localText recursive)
        (r'.mount.within fun k => k.delete r'.path.localText recursive) := by
    intro hempty
    rw [hends.left, hends.right, hends.path, hends.localText_eq]
    exact Work.joint_of_yields (fun x hx => (hx.delete hstorable hne hnode hempty).within)
      (fun y hy => (hy.delete hstorable hne hnode hempty).within) rfl
  refine .ite (by rw [kind_of_untimed hst]) (fun hdir => ?_) fun hdir => ?_
  · have hk : st.kind = .directory := by
      simp only [Bool.and_eq_true, decide_eq_true_eq] at hdir
      exact hdir.1
    refine (joint_hasChildren hends hstorable (hends.directory_of_found hr hk)).bind ?_
    rintro any any' _ ⟨rfl, rfl, hnone⟩
    refine Work.Joint.check Iff.rfl rfl fun hany => hlast fun _ => .inr ?_
    exact hnone (by simpa using hany)
  · refine hlast fun hk => .inl ?_
    have hkind : st.kind = .directory := (Node.kind_eq_directory_iff htold).mpr hk
    simpa [hkind] using hdir

omit h in
theorem joint_checkReplacement {dest dest' : Resolution} {moved : Kind} {overwrite : Bool}
    (hends : c.Ends false mx my dest dest') (hs : Storable dest.path.segments)
    (hr : dest.status = some st) (hst : st'.untimed = st.untimed) (src dst : Path) :
    Work.Joint mx my E c
      (fun _ _ c' => c = c' ∧ overwrite = true ∧ (c.node? dest.path.segments = some .directory →
        ∀ name, c.node? (dest.path.segments ++ [name]) = none))
      (checkReplacement src dst moved dest st overwrite)
      (checkReplacement src dst moved dest' st' overwrite) := by
  obtain ⟨node, hnode, htold⟩ := hends.found st hr
  refine Work.Joint.check Iff.rfl rfl fun hover => ?_
  have hover' : overwrite = true := by simpa using hover
  refine .ite (by rw [kind_of_untimed hst]) (fun hdir => ?_) fun hdir => ?_
  · refine Work.Joint.check Iff.rfl rfl fun _ => ?_
    refine (joint_hasChildren hends hs (hends.directory_of_found hr hdir)).bind ?_
    rintro any any' _ ⟨rfl, rfl, hnone⟩
    exact .ite Iff.rfl (fun _ => Work.joint_throw rfl) fun hany =>
      Work.joint_pure ⟨rfl, hover', fun _ => hnone (by simpa using hany)⟩
  · refine .ite Iff.rfl (fun _ => Work.joint_throw rfl) fun _ =>
      Work.joint_pure ⟨rfl, hover', fun hnode' => ?_⟩
    rw [hnode] at hnode'
    exact absurd ((Node.kind_eq_directory_iff htold).mpr (Option.some.inj hnode')) hdir

omit h in
/-- An entry is moved in both stores, or a path below its destination is too long to be read. -/
theorem joint_moveEntry {host : String} (hdisk : mx.backend.storage = .disk host)
    {S D : List String} (hne : D ≠ []) (hp : (c.prune D hne).Clear S D) (hD : Storable D)
    (hthere : c.node? S ≠ none) {overwrite : Bool} (hold : c.node? D ≠ none → overwrite = true)
    (hempty : c.node? D = some .directory → ∀ name, c.node? (D ++ [name]) = none) :
    Work.Joint mx my (fun site => (site.disk host).Overlong) c (fun _ _ _ => True)
      (mx.within fun k => k.move (rootText S) (rootText D) overwrite)
      (my.within fun k => k.move (rootText S) (rootText D) overwrite) := by
  have hkept : ∀ rest, (c.prune D hne).node? (S ++ rest) = c.node? (S ++ rest) := fun rest => by
    rw [Catalogue.node?_prune, if_neg]
    exact fun hin =>
      (List.prefix_or_prefix_of_prefix hin (List.prefix_append _ _)).elim hp.dest hp.src
  by_cases hshort : ∀ rest, c.node? (S ++ rest) ≠ none → Storable (D ++ rest)
  · have hpassage : (c.prune D hne).Passage S D :=
      ⟨hp, fun rest hrest => hshort rest (by rwa [← hkept])⟩
    exact Work.joint_of_yields
      (fun x hx => (hx.move hne hpassage hthere hold hempty).within)
      (fun y hy => (hy.move hne hpassage hthere hold hempty).within) trivial
  · push Not at hshort
    obtain ⟨rest, hrest, hlong⟩ := hshort
    refine fun x y hx _ => .inl ?_
    refine hx.overlong_of_move hdisk hne hp hD hthere hold hempty hrest ?_
    by_contra hle
    exact hlong ⟨hD.neat.append (c.storable _ hrest).neat.of_append_right, Nat.le_of_not_lt hle⟩

theorem joint_move {host : String} (hdisk : mx.backend.storage = .disk host) {src dst : String}
    (hsrc : s.Asks mx c false src) (hdst : s.Asks mx c false dst) (overwrite : Bool) :
    Work.Joint mx my (fun site => (site.disk host).Overlong) c (fun _ _ _ => True)
      (s.move (.text src) (.text dst) overwrite) (t.move (.text src) (.text dst) overwrite) := by
  refine h.joint_qualified hsrc fun from_ hp hn hl => ?_
  refine h.joint_qualified hdst fun to_ hp' hn' hl' => ?_
  refine (h.joint_require hp hn hl).bind ?_
  rintro ⟨source, st⟩ ⟨source', st'⟩ _ ⟨rfl, hsource, -, hr, hr', hst⟩
  dsimp only at hsource hr hst ⊢
  refine (h.joint_resolve hp' hn' hl').bind ?_
  rintro dest dest' _ ⟨rfl, hdest, hD⟩
  obtain ⟨node, hnode, -⟩ := hsource.found st hr
  have hlast : source.path ≠ dest.path → ¬source.path.isAncestorOf dest.path →
      c.node? dest.path.segments.dropLast = some .directory →
      (c.node? dest.path.segments ≠ none → overwrite = true) →
      (c.node? dest.path.segments = some .directory →
        ∀ name, c.node? (dest.path.segments ++ [name]) = none) →
      Work.Joint mx my (fun site => (site.disk host).Overlong) c (fun _ _ _ => True)
        (source.mount.within fun k =>
          k.move source.path.localText dest.path.localText overwrite)
        (source'.mount.within fun k =>
          k.move source'.path.localText dest'.path.localText overwrite) := by
    intro hother hinto hparent hold hempty
    rw [hsource.left, hsource.right, hsource.path, hdest.path, hsource.localText_eq,
      hdest.localText_eq]
    rw [hsource.place, hdest.place] at hother hinto
    obtain ⟨hne, hclear⟩ := Catalogue.clear_of_empty (by simp [hnode])
      (fun hpre => hinto (mx.isAncestorOf_place.mpr ⟨hpre, fun heq => hother (by rw [heq])⟩))
      (fun heq => hother (by rw [heq])) hparent hempty
    exact joint_moveEntry hdisk hne hclear hD (by simp [hnode]) hold hempty
  refine Work.Joint.check ?_ rfl fun _ => ?_
  · rw [hsource.left, hsource.right, hdest.left, hdest.right]
    simp
  refine Work.Joint.check (by rw [hsource.path]) rfl fun _ => ?_
  refine .ite (by rw [hsource.path, hdest.path]) (fun _ => Work.joint_pure trivial) fun hother => ?_
  refine Work.Joint.check (by rw [hsource.path, hdest.path]) rfl fun hinto => ?_
  rcases hdest.status_cases with ⟨ho, ho'⟩ | ⟨old, old', ho, ho', hsame⟩ <;> rw [ho, ho']
  · dsimp only
    refine Work.Joint.check (by rw [hdest.parentExists]) rfl fun hparent => ?_
    have hfree := hdest.missing ho
    exact hlast hother hinto (hdest.parent.mp (by simpa using hparent))
      (fun hthere => absurd hfree hthere) fun hdir => nomatch hfree.symm.trans hdir
  · dsimp only
    rw [kind_of_untimed hst]
    refine (joint_checkReplacement hdest hD ho hsame from_ to_).bind ?_
    rintro _ _ _ ⟨rfl, hover, hempty⟩
    exact hlast hother hinto (hdest.parent.mp (hdest.parent_of_some ho)) (fun _ => hover) hempty

/-! ### All requests -/

/-- **Two stores that keep one catalogue give the same answer to every request** that leaves times
alone, and keep one catalogue again, unless paths come about that are too long to be read. -/
theorem joint_work {host : String} (hdisk : mx.backend.storage = .disk host)
    (hzero : ∀ char ∈ mx.location.text.toList, char.toNat ≠ 0) {q : Request}
    (hq : q.Among Tame s.registry)
    (hl : ∀ raw ∈ q.paths, ∀ path, s.qualified (.text raw) = .ok path →
      s.Legible mx c path q.follows)
    (htimes : ∀ path accessed modified, q ≠ .setTimes path accessed modified) :
    Work.Joint mx my (fun site => (site.disk host).Overlong) c (Answer.Joint mx my)
      (q.work s) (q.work t) := by
  have asks : ∀ raw ∈ q.paths, s.Asks mx c q.follows raw := fun raw hraw =>
    ⟨hq.paths raw hraw, hl raw hraw⟩
  cases q with
  | makeLink target link createParent =>
    exact (h.joint_makeLink (asks link (by simp [Request.paths]))
      (fun p hp => hq.target target rfl p hp mx (by simp [h.left])) hzero createParent).map
      fun _ _ _ _ => .of_done
  | linkTarget path =>
    exact (h.joint_linkTarget (asks path (by simp [Request.paths]))).map
      fun _ _ _ hp => .of_path hp
  | status path =>
    exact (h.joint_status (asks path (by simp [Request.paths]))).map
      fun _ _ _ hst => .of_entry hst
  | linkStatus path =>
    exact (h.joint_linkStatus (asks path (by simp [Request.paths]))).map
      fun _ _ _ hst => .of_entry hst
  | exists_ path =>
    exact (h.joint_exists (asks path (by simp [Request.paths]))).map
      fun _ _ _ hb => .of_truth hb
  | isFile path =>
    exact (h.joint_hasKind .file (asks path (by simp [Request.paths]))).map
      fun _ _ _ hb => .of_truth hb
  | isDirectory path =>
    exact (h.joint_hasKind .directory (asks path (by simp [Request.paths]))).map
      fun _ _ _ hb => .of_truth hb
  | resolvePath path =>
    exact (h.joint_resolvePath (asks path (by simp [Request.paths]))).map
      fun _ _ _ hp => .of_path hp
  | list path =>
    exact (h.joint_listing (asks path (by simp [Request.paths]))).map
      fun _ _ _ hl => .of_entries hl
  | openFile path =>
    exact (h.joint_openFile (asks path (by simp [Request.paths]))).map
      fun _ _ _ hs => .of_reading hs
  | createFile path overwrite createParent =>
    exact (h.joint_createFile (asks path (by simp [Request.paths])) overwrite createParent).map
      fun _ _ _ hs => .of_writing hs.1 hs.2
  | appendFile path =>
    exact (h.joint_appendFile (asks path (by simp [Request.paths]))).map
      fun _ _ _ hs => .of_writing hs.1 hs.2
  | makeDirectory path createParent =>
    exact (h.joint_makeDirectory (asks path (by simp [Request.paths])) createParent).map
      fun _ _ _ _ => .of_done
  | delete path recursive =>
    exact (h.joint_delete (asks path (by simp [Request.paths])) recursive).map
      fun _ _ _ hb => .of_truth hb
  | move src dst overwrite =>
    exact (h.joint_move hdisk (asks src (by simp [Request.paths]))
      (asks dst (by simp [Request.paths])) overwrite).map fun _ _ _ _ => .of_done
  | setTimes path accessed modified => exact absurd rfl (htimes path accessed modified)
  | changeDirectory path =>
    exact (h.joint_changeDirectory (asks path (by simp [Request.paths]))).map
      fun _ _ _ hp => .of_directory hp.1 hp.2

end Counterparts

end Session

end MountSpace
