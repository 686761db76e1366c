import MountSpace.Proofs.Session.TreeRequests

/-!
# Trees in histories

A table that begins empty stays a tree as long as no deed puts an entry astray, and there are three
kinds of deeds that can.  A stream that is closed writes its file anew without asking whether the
directory is still there.  A path with a name that ends in a blank is walked under one spelling and
stored under another.  And a directory can be moved below one that goes along with it.

## Main definitions

* `Scene.Mishap` — a deed of one of the three kinds, with an entry astray.

Main statement: `Scene.isTree_run_iff`.
-/

namespace MountSpace

open MountSpace.Path

namespace Scene

/-- A deed that puts an entry where no directory holds it. -/
inductive Mishap (scene : Scene) (T : TableName) : Deed → Prop
  /-- A stream that replaces is closed after its file and the file's directory have gone. -/
  | late {stream : ℕ} {s : OutputStream} {sink : Sink} {key parent name : String} :
      scene.streams[stream]? = some (s, sink) → s.closed = false → sink.mode = .replace →
      sink.mount.table? = some T → Table.key sink.path = .ok key →
      (scene.site.table T).find key = .ok none → Table.split key = .ok (parent, name) →
      ¬(scene.site.table T).Held parent → Mishap scene T (.close stream)
  /-- An entry is put at the end of a path with a name that ends in a blank, and is astray.  It need
  not be: the directory under which it is stored may be there all the same. -/
  | blank {client : ℕ} {q : Request} {r : Resolution} {key : String} :
      (scene.session client).Stores scene.site q r → r.mount.table? = some T →
      Table.key r.path.localText = .ok key → (∃ n ∈ r.path.segments, EndsBlank n) →
      ((scene.after (.request client q)).site.table T).Strays key →
      Mishap scene T (.request client q)
  /-- An entry is moved below one that goes along with it, and is astray.  It need not be: a
  directory whose path differs from that of the source in the case of letters stays where it is. -/
  | folded {client : ℕ} {q : Request} {r : Resolution} {key : String} :
      (scene.session client).Stores scene.site q r → r.mount.table? = some T →
      Table.key r.path.localText = .ok key → (scene.session client).Folds scene.site q →
      ((scene.after (.request client q)).site.table T).Strays key →
      Mishap scene T (.request client q)

variable {scene : Scene} {T : TableName} {deed : Deed}

/-- After a mishap the table is no tree. -/
theorem Mishap.not_isTree (h : scene.Mishap T deed) :
    ¬((scene.after deed).site.table T).IsTree := by
  cases h with
  | blank _ _ _ _ hstrays => exact fun htree => Table.not_strays_of_isTree htree hstrays
  | folded _ _ _ _ hstrays => exact fun htree => Table.not_strays_of_isTree htree hstrays
  | @late stream s sink _ _ _ hstream hopen hmode hT hkey hfind hsplit hloose =>
    obtain ⟨t, hwrite, hloose⟩ :=
      Table.not_isTree_of_write hkey hfind hsplit hloose scene.site.now s.buffer true
    have hafter : ((scene.after (.close stream)).site.table T) = t := by
      rw [site_after_close_open hstream hopen, Sink.commit, hmode]
      exact Mount.write_table hT hwrite
    rwa [hafter]

/-- Closing a stream keeps a tree, if it is no mishap. -/
theorem Orderly.sound_after_close (h : scene.Orderly) (hs : (scene.site.table T).Sound)
    {stream : ℕ} (hno : ¬scene.Mishap T (.close stream)) :
    ((scene.after (.close stream)).site.table T).Sound := by
  rcases site_after_close scene stream with hsame | ⟨s, sink, hstream, hopen, hafter⟩
  · rwa [hsame]
  rw [hafter]
  obtain ⟨names, hnames, hpath⟩ := h.sinks _ (List.mem_of_getElem? hstream)
  dsimp only at hpath
  rcases hcommit : (sink.commit s.buffer).eval scene.site with ⟨res, site⟩
  unfold Sink.commit at hcommit
  cases hmode : sink.mode with
  | extend =>
    rw [hmode] at hcommit
    rcases Mount.table_append hcommit T with hsame | ⟨-, hop⟩
    · rwa [hsame]
    · exact hs.sameShape (Table.shape_of_append hop)
  | replace =>
    rw [hmode] at hcommit
    rcases Mount.table_write hcommit T with hsame | ⟨hT, hop⟩
    · rwa [hsame]
    refine ⟨hs.coherent.write hnames (hpath ▸ hop), ?_⟩
    rcases Table.shape_of_write hop with hshape | ⟨key, hkey, hinsert⟩
    · exact hshape.isTree hs.isTree
    refine hs.isTree.insert_held hinsert fun parent name hsplit => ?_
    by_contra hloose
    exact hno (.late hstream hopen hmode hT hkey (Table.find_of_insert hinsert) hsplit hloose)

/-- **A deed that is no mishap keeps a tree.** -/
theorem Orderly.sound_after (h : scene.Orderly) (hs : (scene.site.table T).Sound)
    (hno : ¬scene.Mishap T deed) : ((scene.after deed).site.table T).Sound := by
  cases deed with
  | request client q =>
    have hafter := site_after_request scene client q
    rcases hq : (q.work (scene.session client)).eval scene.site with ⟨res, site⟩
    rw [hq] at hafter
    rw [hafter]
    refine Session.sound_after (h.proper client) hs (fun r key hr hT hkey hwhy hstrays => ?_) hq
    rw [← hafter] at hstrays
    rcases hwhy with hblank | hfolds
    · exact hno (.blank hr hT hkey hblank hstrays)
    · exact hno (.folded hr hT hkey hfolds hstrays)
  | write stream data =>
    rw [site_after_write]
    exact hs
  | close stream => exact h.sound_after_close hs hno
  | discard stream =>
    rw [site_after_discard]
    exact hs
  | wait now => exact hs

/-- **A table stays a tree exactly as long as there is no mishap.**  However long a history is that
begins with an empty table, every entry is in a directory, and is found from the root on. -/
theorem isTree_run_iff (scene : Scene) (ho : scene.Opening) (T : TableName)
    (hempty : (scene.site.table T).rows = []) (deeds : List Deed) :
    (∀ done, done <+: deeds → ((scene.run done).site.table T).IsTree ∧
        ∀ row ∈ ((scene.run done).site.table T).rows,
          ((scene.run done).site.table T).Reached row) ↔
      ∀ done deed, done ++ [deed] <+: deeds → ¬(scene.run done).Mishap T deed := by
  constructor
  · intro h done deed hpre hmishap
    have htree := (h (done ++ [deed]) hpre).1
    rw [run_concat] at htree
    exact hmishap.not_isTree htree
  · intro hno done hdone
    have hsound : ((scene.run done).site.table T).Sound := by
      induction done using List.reverseRecOn with
      | nil => exact Table.sound_of_nil hempty
      | append_singleton done deed ih =>
        rw [run_concat]
        exact (ho.orderly.run done).sound_after
          (ih ((List.prefix_append _ _).trans hdone)) (hno done deed hdone)
    exact ⟨hsound.isTree, (Table.reached_iff_isTree hsound.coherent).mpr hsound.isTree⟩

/-- Clients at the root of an empty table. -/
def onTable : Scene :=
  let capability : Capability :=
    { scheme := "lfs", authority := some "nn", requiresAuthority := true, honorsTimes := true,
      followsWorkingDirectory := true, authority_of_requires := fun _ => by decide }
  let m := Mount.make 0 { storage := .table "entries", capability } (some "db") ""
  { registry := Registry.add {} m
    maxLinks := 32
    standpoint := fun _ => ⟨capability.rootPath, capability⟩
    site := { tables := [(⟨"db", "entries"⟩, Table.empty)], now := ⟨0⟩ } }

theorem onTable_opening : onTable.Opening := ⟨fun _ => rfl, rfl⟩

/-- A directory, and a file in it that is written when its stream is closed. -/
theorem isTree_run_iff_written :
    let T : TableName := ⟨"db", "entries"⟩
    let deeds : List Deed :=
      [.request 0 (.makeDirectory "/d" false), .request 0 (.createFile "/d/f" false false),
        .write 0 [104, 105], .close 0]
    onTable.Opening ∧ (onTable.site.table T).rows = [] ∧
      ((onTable.run deeds).site.table T).rows.map (fun row => (row.path, row.parent, row.size)) =
        [("/d", "/", 0), ("/d/f", "/d", 2)] ∧
      ((∀ done, done <+: deeds → ((onTable.run done).site.table T).IsTree ∧
          ∀ row ∈ ((onTable.run done).site.table T).rows,
            ((onTable.run done).site.table T).Reached row) ↔
        ∀ done deed, done ++ [deed] <+: deeds → ¬(onTable.run done).Mishap T deed) := by
  intro T deeds
  exact ⟨onTable_opening, rfl, by decide +kernel,
    isTree_run_iff onTable onTable_opening T rfl deeds⟩

/-- The directory is deleted while the stream is open, and closing writes the file anew. -/
theorem not_isTree_run_closed_late :
    let T : TableName := ⟨"db", "entries"⟩
    let deeds : List Deed :=
      [.request 0 (.makeDirectory "/d" false), .request 0 (.createFile "/d/f" false false),
        .request 0 (.delete "/d" true), .close 0]
    onTable.Opening ∧ (onTable.site.table T).rows = [] ∧
      ((onTable.run deeds).site.table T).rows.map (fun row => (row.path, row.parent)) =
        [("/d/f", "/d")] ∧
      ¬((onTable.run deeds).site.table T).IsTree := by
  intro T deeds
  exact ⟨onTable_opening, rfl, by decide +kernel, by decide +kernel⟩

end Scene

end MountSpace
