import MountSpace.Proofs.Session.Careful
import MountSpace.Proofs.Session.TreeHistory
import MountSpace.Proofs.Store.Stepwise

/-!
# Failure leaves the tables alone

An operation that makes no parents reads until it hands one piece of work to a mount.  Reading
changes no table, and a session whose work or commit fails is rolled back.  So an operation that
fails leaves all tables as they were, and so does the closing of an output stream.

This does not depend on how the primitives change a table, nor on how much they have changed when
they fail: it holds for every driver that reads without writing, reaches tables only in sessions
and changes no more when it commits.  One such driver changes a table row by row; what it does, with
failed sessions rolled back, is what the stores do.

## Main definitions

* `Work.Atomic` — work that leaves the tables as they were when it fails.
* `Driver.Regular` — what is asked of a driver.
* `Driver.stepwise` — the stores, with tables changed row by row.

Main statements: `Script.run_stepwise`, `Driver.tables_of_failure`.
-/

namespace MountSpace

/-! ## Work and tables -/

namespace Work

variable {α β : Type} {w : Work α} {f : α → Work β}

/-- The work changes no table, whatever comes of it. -/
def KeepsTables (w : Work α) : Prop := ∀ site, (w.eval site).2.tables = site.tables

/-- The work changes no table when it fails. -/
def Atomic (w : Work α) : Prop :=
  ∀ site after e, w.eval site = (.error e, after) → after.tables = site.tables

theorem Quiet.keepsTables (h : w.Quiet) : w.KeepsTables := fun site => by
  obtain ⟨events, hsite⟩ := h site
  rw [hsite]
  rfl

theorem KeepsTables.tables_eq (h : w.KeepsTables) {site after : Site} {r : Except Error α}
    (hw : w.eval site = (r, after)) : after.tables = site.tables := by
  rw [← h site, hw]

theorem KeepsTables.atomic (h : w.KeepsTables) : w.Atomic := fun _ _ _ => h.tables_eq

theorem KeepsTables.bind (hw : w.KeepsTables) (hf : ∀ a, (f a).KeepsTables) :
    (w >>= f).KeepsTables := by
  intro site
  have hsite := hw site
  rw [Action.eval_bind]
  rcases hrun : w.eval site with ⟨e | a, t⟩ <;> rw [hrun] at hsite
  · exact hsite
  · exact (hf a t).trans hsite

theorem KeepsTables.bind_atomic (hw : w.KeepsTables) (hf : ∀ a, (f a).Atomic) :
    (w >>= f).Atomic := by
  intro site after e h
  have hsite := hw site
  rcases Action.eval_bind_cases h with ⟨cause, hfail, -⟩ | ⟨a, t, hok, h⟩
  · rwa [hfail] at hsite
  · rw [hok] at hsite
    exact (hf a t after e h).trans hsite

/-- What cannot fail may come after what leaves the tables alone when it fails. -/
theorem Atomic.bind_sure (hw : w.Atomic)
    (hf : ∀ a site e after, (f a).eval site ≠ (.error e, after)) : (w >>= f).Atomic := by
  intro site after e h
  rcases Action.eval_bind_cases h with ⟨cause, hfail, -⟩ | ⟨a, t, -, h⟩
  · exact hw site after cause hfail
  · exact absurd h (hf a t e after)

end Work

/-! ## Regular drivers -/

/-- What is asked of a driver.  Nothing is asked of a primitive that fails in a session, nor of a
commit that fails. -/
structure Driver.Regular (d : Driver) : Prop where
  /-- Reading changes no table. -/
  reads : ∀ {c : Connection} {q : Primitive}, q.Reads → ∀ {site after : Site} {a : q.Result},
    (d.perform c q).eval site = (.ok a, after) → after.tables = site.tables
  /-- Tables are reached in sessions only. -/
  sessions : ∀ {c : Connection}, c.database = none → ∀ q, (d.perform c q).KeepsTables
  /-- A commit changes no more than was changed in the session. -/
  commit : ∀ {site after : Site}, d.commit.eval site = (.ok (), after) → after.tables = site.tables

namespace Driver.Regular

variable {α : Type} {d : Driver} (hd : d.Regular)
include hd

/-- Outside sessions, no piece of work changes a table. -/
theorem keepsTables_piece {c : Connection} (hc : c.database = none) (p : Piece α) :
    (p.run d c).KeepsTables := by
  induction p with
  | ofExcept r => exact fun _ => rfl
  | call q => exact hd.sessions hc q
  | bind p f ihp ihf => exact ihp.bind ihf

/-- A piece of work that reads changes no table when it succeeds. -/
theorem tables_of_reads {c : Connection} {p : Piece α} (hp : p.Reads) {site after : Site} {a : α}
    (h : (p.run d c).eval site = (.ok a, after)) : after.tables = site.tables := by
  induction p generalizing site after with
  | ofExcept r => cases h; rfl
  | call q => exact hd.reads hp h
  | bind p f ihp ihf =>
    obtain ⟨x, t, hx, h⟩ := Action.eval_bind_eq_ok h
    exact (ihf x (hp.2 x) h).trans (ihp hp.1 hx)

/-- A piece of work that fails is undone. -/
theorem atomic_within (m : Mount) (p : Piece α) : (d.within m (p.run d)).Atomic := by
  intro site after e h
  cases hm : m.hasSessions with
  | false =>
    rw [eval_within_plain d _ site hm] at h
    have hnone : m.database = none := by simpa [Mount.hasSessions] using hm
    exact (hd.keepsTables_piece (c := m.connection) hnone p).atomic site after e h
  | true =>
    rw [eval_within_session d _ site hm] at h
    rcases hp : (p.run d m.connection).eval site with ⟨cause | a, t⟩ <;> rw [hp] at h
    · cases h
      rfl
    · dsimp only at h
      rcases hc : d.commit.eval t with ⟨cause | ⟨⟩, u⟩ <;> rw [hc] at h <;> cases h
      rfl

theorem keepsTables_within (m : Mount) {p : Piece α} (hp : p.Reads) :
    (d.within m (p.run d)).KeepsTables := by
  intro site
  rcases h : (d.within m (p.run d)).eval site with ⟨e | a, after⟩
  · exact hd.atomic_within m p site after e h
  cases hm : m.hasSessions with
  | false =>
    rw [eval_within_plain d _ site hm] at h
    exact hd.tables_of_reads hp h
  | true =>
    rw [eval_within_session d _ site hm] at h
    rcases hw : (p.run d m.connection).eval site with ⟨cause | x, t⟩ <;> rw [hw] at h
    · cases h
    · dsimp only at h
      rcases hc : d.commit.eval t with ⟨cause | ⟨⟩, u⟩ <;> rw [hc] at h <;> cases h
      exact (hd.commit hc).trans (hd.tables_of_reads hp hw)

/-- A script that only reads changes no table. -/
theorem keepsTables_run {x : Script α} (hx : x.Reads) : (x.run d).KeepsTables := by
  induction x with
  | ofExcept r => exact fun _ => rfl
  | report e => exact fun _ => rfl
  | within m p => exact hd.keepsTables_within m hx
  | attempt x ih => exact fun site => ih hx site
  | bind x f ihx ihf => exact (ihx hx.1).bind fun a => ihf a (hx.2 a)

omit hd in
theorem sure_run {x : Script α} (hx : x.Sure) (site : Site) (e : Error) (after : Site) :
    (x.run d).eval site ≠ (.error e, after) := by
  induction x generalizing site with
  | ofExcept r =>
    obtain ⟨a, rfl⟩ := hx
    intro h
    cases h
  | report => intro h; cases h
  | within => exact hx.elim
  | attempt => exact hx.elim
  | bind x f ihx ihf =>
    intro h
    rcases Action.eval_bind_cases h with ⟨cause, hfail, hcause⟩ | ⟨a, t, -, h⟩
    · cases hcause
      exact ihx hx.1 site hfail
    · exact ihf a (hx.2 a) t h

/-- A careful script that fails changes no table. -/
theorem atomic_run {x : Script α} (hx : x.Careful) : (x.run d).Atomic := by
  induction x with
  | ofExcept r => exact fun _ _ _ h => by cases h; rfl
  | report e => exact fun _ _ _ h => by cases h
  | within m p => exact hd.atomic_within m p
  | attempt x => exact fun _ _ _ h => by cases h
  | bind x f ihx ihf =>
    rcases hx with ⟨hreads, hcareful⟩ | ⟨hcareful, hsure⟩
    · exact (hd.keepsTables_run hreads).bind_atomic fun a => ihf a (hcareful a)
    · exact (ihx hcareful).bind_sure fun a site e after => sure_run (hsure a) site e after

end Driver.Regular

/-! ## The stores -/

namespace Connection

variable (c : Connection)

theorem withTable_of_none {α : Type} (hc : c.database = none) (name : String)
    (f : Instant → Table → Except Error (α × Table)) :
    c.withTable name f = throw .sessionMissing := by
  unfold withTable tableIn
  rw [hc]
  rfl

theorem changeTable_of_none (hc : c.database = none) (name : String)
    (f : Instant → Table → Except Error Table) : c.changeTable name f = throw .sessionMissing :=
  c.withTable_of_none hc name _

/-- Without a session, a store changes no table. -/
theorem keepsTables_perform (hc : c.database = none) (q : Primitive) :
    (c.perform q).KeepsTables := by
  cases q with
  | status path => exact (c.quiet_status path).keepsTables
  | content path => exact (c.quiet_content path).keepsTables
  | list path => exact (c.quiet_list path).keepsTables
  | write | append | makeDirectory | makeLink | setTimes =>
    simp only [perform, write, append, makeDirectory, makeLink, setTimes]
    split
    · exact fun _ => rfl
    · rw [c.changeTable_of_none hc]
      exact fun _ => rfl
  | delete path recursive =>
    simp only [perform, delete]
    split
    · exact fun _ => rfl
    · rw [c.withTable_of_none hc]
      exact fun _ => rfl
  | move src dest overwrite =>
    simp only [perform, move]
    split
    · exact fun _ => rfl
    · rw [c.changeTable_of_none hc]
      exact fun _ => rfl

end Connection

theorem Driver.regular_stores : Driver.stores.Regular where
  reads {c q} hq {site after a} h := by
    cases q with
    | status path => exact (c.quiet_status path).keepsTables.tables_eq h
    | content path => exact (c.quiet_content path).keepsTables.tables_eq h
    | list path => exact (c.quiet_list path).keepsTables.tables_eq h
    | write | append | makeDirectory | makeLink | delete | move | setTimes => exact hq.elim
  sessions {c} hc q := c.keepsTables_perform hc q
  commit h := by cases h; rfl

/-! ## Tables changed row by row -/

/-- An action on one table.  What it has done stays done when it fails. -/
def Work.throughTable {α : Type} (name : TableName) (w : Action Error Table α) : Work α :=
  .ofFun fun site =>
    let (r, t) := w.eval (site.table name)
    (r, site.setTable name t)

/-- The stores, with entries moved and times set row by row. -/
def Driver.stepwise : Driver where
  perform c
    | .move src dest overwrite =>
      match c.backend.storage with
      | .disk _ => c.move src dest overwrite
      | .table name => do
        Work.throughTable (← .ofExcept (c.tableIn name)) (Table.stepMove src dest overwrite)
        let src ← .ofExcept (Table.key src)
        let dest ← .ofExcept (Table.key dest)
        Work.report (.moved src dest)
    | .setTimes path accessed modified =>
      match c.backend.storage with
      | .disk _ => c.setTimes path accessed modified
      | .table name => do
        Work.throughTable (← .ofExcept (c.tableIn name)) (Table.stepTimes path accessed modified)
    | q => c.perform q
  commit := pure ()

/-- Work whose failure puts the tables of `before` back. -/
def Work.rolledBack {α : Type} (before : Site) (w : Work α) : Work α := .ofFun fun site =>
  match w.eval site with
  | (.ok a, t) => (.ok a, t)
  | (.error e, t) => (.error e, before.restoreTables t)

namespace Work

variable {α β : Type} (before : Site)

theorem rolledBack_bind (w : Work α) (f : α → Work β) :
    rolledBack before (w >>= f) = .ofFun fun site =>
      match (rolledBack before w).eval site with
      | (.ok a, t) => (rolledBack before (f a)).eval t
      | (.error e, t) => (.error e, t) := by
  apply Action.ext
  intro site
  simp only [rolledBack, Action.eval_ofFun, Action.eval_bind]
  rcases w.eval site with ⟨e | a, t⟩ <;> rfl

/-- What comes after may be replaced by what comes to the same when it is rolled back. -/
theorem rolledBack_congr {w v : Work α} {f g : α → Work β}
    (h : rolledBack before w = rolledBack before v)
    (hf : ∀ a, rolledBack before (f a) = rolledBack before (g a)) :
    rolledBack before (w >>= f) = rolledBack before (v >>= g) := by
  rw [rolledBack_bind, rolledBack_bind, h]
  simp only [hf]

/-- An action on a table, rolled back, does what it comes to with its failure undone. -/
theorem rolledBack_throughTable (name : TableName) (w : Action Error Table α) :
    rolledBack before (throughTable name w) =
      rolledBack before (onTable name fun _ t => w.undone t) := by
  apply Action.ext
  intro site
  simp only [rolledBack, throughTable, onTable, Action.undone, Action.eval_ofFun]
  rcases w.eval (site.table name) with ⟨e | a, t⟩ <;> rfl

end Work

namespace Driver

variable {c : Connection}

/-- Outside a session, both refuse to touch a table. -/
theorem perform_stepwise_of_none (hc : c.database = none) (q : Primitive) :
    stepwise.perform c q = c.perform q := by
  have hin : ∀ name, c.tableIn name = .error .sessionMissing := fun name => by
    rw [Connection.tableIn, hc]
  cases q with
  | move src dest overwrite =>
    simp only [stepwise, Connection.perform]
    split
    · rfl
    · rename_i name hs
      rw [Connection.move, hs, hin name]
      dsimp only
      rw [c.changeTable_of_none hc]
      rfl
  | setTimes path accessed modified =>
    simp only [stepwise, Connection.perform]
    split
    · rfl
    · rename_i name hs
      rw [Connection.setTimes, hs, hin name]
      dsimp only
      rw [c.changeTable_of_none hc]
      rfl
  | _ => rfl

/-- Rolled back when it fails, a primitive does the same row by row. -/
theorem rolledBack_perform (before : Site) (c : Connection) (q : Primitive) :
    Work.rolledBack before (stepwise.perform c q) = Work.rolledBack before (c.perform q) := by
  cases q with
  | move src dest overwrite =>
    cases hs : c.backend.storage with
    | disk host => simp only [stepwise, Connection.perform, hs]
    | table name =>
      simp only [stepwise, Connection.perform, Connection.move, hs, Connection.changeTable,
        Connection.withTable, bind_assoc]
      refine Work.rolledBack_congr before rfl fun T => Work.rolledBack_congr before ?_ fun _ => rfl
      rw [Work.rolledBack_throughTable]
      simp only [Table.undone_stepMove]
  | setTimes path accessed modified =>
    cases hs : c.backend.storage with
    | disk host => simp only [stepwise, Connection.perform, hs]
    | table name =>
      simp only [stepwise, Connection.perform, Connection.setTimes, hs, Connection.changeTable,
        Connection.withTable]
      refine Work.rolledBack_congr before rfl fun T => ?_
      rw [Work.rolledBack_throughTable]
      simp only [Table.undone_stepTimes]
  | _ => rfl

variable {α : Type}

theorem rolledBack_piece (before : Site) (c : Connection) (p : Piece α) :
    Work.rolledBack before (p.run stepwise c) = Work.rolledBack before (p.run stores c) := by
  induction p with
  | ofExcept r => rfl
  | call q => exact rolledBack_perform before c q
  | bind p f ihp ihf => exact Work.rolledBack_congr before ihp ihf

theorem piece_stepwise_of_none {c : Connection} (hc : c.database = none) (p : Piece α) :
    p.run stepwise c = p.run stores c := by
  induction p with
  | ofExcept r => rfl
  | call q => exact perform_stepwise_of_none hc q
  | bind p f ihp ihf =>
    simp only [Piece.run, ihp, ihf]

/-- A driver whose commits do nothing rolls failed sessions back, and does no more. -/
theorem eval_within_rolledBack {d : Driver} (hcommit : d.commit = pure ()) {m : Mount}
    (hm : m.hasSessions = true) (work : Connection → Work α) (site : Site) :
    (d.within m work).eval site = (Work.rolledBack site (work m.connection)).eval site := by
  rw [eval_within_session d work site hm, hcommit]
  unfold Work.rolledBack
  rw [Action.eval_ofFun]
  rcases (work m.connection).eval site with ⟨e | a, t⟩ <;> rfl

theorem regular_stepwise : stepwise.Regular where
  reads {c q} hq {site after a} h := by
    have hsame : stepwise.perform c q = c.perform q := by
      cases q with
      | status | content | list => rfl
      | write | append | makeDirectory | makeLink | delete | move | setTimes => exact hq.elim
    rw [hsame] at h
    exact regular_stores.reads hq h
  sessions {c} hc q := by
    rw [perform_stepwise_of_none hc]
    exact c.keepsTables_perform hc q
  commit h := by cases h; rfl

end Driver

/-- **Tables may be changed row by row.**  With failed sessions rolled back, a script comes to what
it comes to when the stores change each table at once. -/
theorem Script.run_stepwise {α : Type} (x : Script α) : x.run .stepwise = x.run .stores := by
  induction x with
  | ofExcept r => rfl
  | report e => rfl
  | within m p =>
    apply Action.ext
    intro site
    rw [run_within, run_within]
    cases hm : m.hasSessions with
    | false =>
      have hc : m.connection.database = none := by
        simpa [Mount.hasSessions, Mount.connection] using hm
      rw [Driver.eval_within_plain _ _ _ hm, Driver.eval_within_plain _ _ _ hm,
        Driver.piece_stepwise_of_none hc]
    | true =>
      rw [Driver.eval_within_rolledBack rfl hm, Driver.eval_within_rolledBack rfl hm,
        Driver.rolledBack_piece]
  | attempt x ih => exact congrArg Action.attempt ih
  | bind x f ihx ihf => simp only [run, ihx, ihf]

/-! ## Failure -/

/-- Closing a stream changes no table when it fails. -/
def OutputStream.ClosesAtomic (commit : OutputStream.Commit Site) : Prop :=
  ∀ (stream stream' : OutputStream) (site after : Site) (e : Error),
    (OutputStream.close commit).eval (stream, site) = (.error e, stream', after) →
      after.tables = site.tables

theorem OutputStream.closesAtomic {commit : OutputStream.Commit Site}
    (h : ∀ data, Work.Atomic (commit data)) : OutputStream.ClosesAtomic commit := by
  intro stream stream' site after e hfail
  cases hclosed : stream.closed with
  | true =>
    obtain ⟨path, buffer, closed⟩ := stream
    obtain rfl : closed = true := hclosed
    cases hfail
  | false =>
    rw [OutputStream.eval_close hclosed] at hfail
    rcases hdone : (commit stream.buffer).eval site with ⟨cause | ⟨⟩, t⟩ <;> rw [hdone] at hfail
    · cases hfail
      exact h _ site _ _ hdone
    · cases hfail

namespace Driver

/-- **Failure leaves the tables alone.**  When an operation that makes no parents fails, or the
closing of an output stream, all tables are as they were before: so it is with the stores, and with
every other driver that reads without writing, reaches tables only in sessions and commits no more
than was done. -/
theorem tables_of_failure (d : Driver) (hd : d.Regular) :
    (∀ (s : Session) (o : Operation), o.makesParents = false →
      (o.work s).Atomic ∧ ((o.script s).run d).Atomic) ∧
    ∀ sink : Sink, OutputStream.ClosesAtomic sink.commit ∧
      OutputStream.ClosesAtomic fun data => (sink.script data).run d := by
  constructor
  · intro s o ho
    rw [← o.run_stores]
    exact ⟨regular_stores.atomic_run (o.careful s ho), hd.atomic_run (o.careful s ho)⟩
  · intro sink
    refine ⟨OutputStream.closesAtomic fun data => ?_,
      OutputStream.closesAtomic fun data => hd.atomic_within sink.mount _⟩
    rw [← sink.run_stores]
    exact regular_stores.atomic_within sink.mount _

/-- Row by row, a directory is moved over an empty one.  The old destination is gone and two rows
have come to one path before this is seen; then the session is rolled back. -/
theorem tables_of_failure_moved :
    let scene := Scene.onTable.run
      [.request 0 (.makeDirectory "/a/x" true), .request 0 (.makeDirectory "/A/x" true),
        .request 0 (.makeDirectory "/b" false)]
    let T : TableName := ⟨"db", "entries"⟩
    let o : Operation := .errand (.moveFrom (.text "/b") true) (.text "/a")
    stepwise.Regular ∧ o.makesParents = false ∧
      ((Table.stepMove "/a" "/b" true).eval (scene.site.table T)).2.rows.map Row.path =
        ["/b", "/b/x", "/A", "/b/x"] ∧
      ∃ after, ((o.script (scene.session 0)).run stepwise).eval scene.site =
          (.error .duplicatePath, after) ∧
        (after.table T).rows.map Row.path = ["/a", "/a/x", "/A", "/A/x", "/b"] := by
  intro scene T o
  have hrows : (scene.site.table T).rows.map Row.path = ["/a", "/a/x", "/A", "/A/x", "/b"] := by
    decide +kernel
  have hfails : ((o.work (scene.session 0)).eval scene.site).1 = .error .duplicatePath := by
    decide +kernel
  have heval : ((o.script (scene.session 0)).run stepwise).eval scene.site =
      (.error .duplicatePath, ((o.work (scene.session 0)).eval scene.site).2) := by
    rw [Script.run_stepwise, o.run_stores, ← hfails]
  refine ⟨regular_stepwise, rfl, by decide +kernel, _, heval, ?_⟩
  have htables := ((tables_of_failure stepwise regular_stepwise).1 (scene.session 0) o rfl).2
    scene.site _ _ heval
  rw [Site.table, htables]
  exact hrows

end Driver

end MountSpace
