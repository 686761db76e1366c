import MountSpace.Proofs.Session.Order
import MountSpace.Proofs.Store.Tree

/-!
# What work does to one table

Work on a mount leaves a table as it is, or hands it one operation: the mount keeps its entries in
the table, and the operation succeeds.

## Main definitions

* `Mount.table?` — the table in which a mount keeps its entries.
-/

namespace MountSpace

/-- The table in which a mount keeps its entries, if it does so in a table it can reach. -/
def Mount.table? (m : Mount) : Option TableName :=
  match m.backend.storage, m.database with
  | .table name, some database => some ⟨database, name⟩
  | _, _ => none

namespace Site

theorem table_setTable (site : Site) (name T : TableName) (t : Table) :
    (site.setTable name t).table T = if T = name then t else site.table T := by
  unfold table setTable
  split
  · rename_i heq
    rw [heq, lookup_setEntry_self]
    rfl
  · rename_i hne
    rw [lookup_setEntry_of_ne hne]

end Site

variable {α : Type} {m : Mount} {c : Connection} {site after : Site} {T : TableName}
variable {name path : String}

/-- A table is changed by an operation on it that succeeds, and by nothing else. -/
theorem Connection.table_withTable {f : Instant → Table → Except Error (α × Table)}
    {res : Except Error α} (h : (c.withTable name f).eval site = (res, after)) (T : TableName) :
    after.table T = site.table T ∨ c.tableIn name = .ok T ∧
      ∃ a, res = .ok a ∧ f site.now (site.table T) = .ok (a, after.table T) := by
  unfold withTable at h
  rcases Action.eval_ofExcept_cases h with ⟨e, -, -, rfl⟩ | ⟨found, hfound, h⟩
  · exact .inl rfl
  unfold Work.onTable at h
  rw [Action.eval_ofFun] at h
  by_cases hT : T = found
  · subst hT
    cases hf : f site.now (site.table T) with
    | error e => rw [hf] at h; cases h; exact .inl rfl
    | ok next =>
      rw [hf] at h
      cases h
      refine .inr ⟨hfound, next.1, rfl, ?_⟩
      rw [Site.table_setTable, if_pos rfl]
  · split at h <;> cases h
    · rw [Site.table_setTable, if_neg hT]
      exact .inl rfl
    · exact .inl rfl

theorem Connection.table_changeTable {f : Instant → Table → Except Error Table}
    {res : Except Error Unit} (h : (c.changeTable name f).eval site = (res, after))
    (T : TableName) :
    after.table T = site.table T ∨ c.tableIn name = .ok T ∧ res = .ok () ∧
      f site.now (site.table T) = .ok (after.table T) := by
  rcases table_withTable h T with hsame | ⟨hin, a, hres, hf⟩
  · exact .inl hsame
  · cases hft : f site.now (site.table T) with
    | error e => rw [hft] at hf; cases hf
    | ok t =>
      rw [hft] at hf
      cases hf
      exact .inr ⟨hin, hres, rfl⟩

theorem Work.table_onDisk {host : String} {f : Instant → Disk → Except Error α × Disk}
    {res : Except Error α} (h : (Work.onDisk host f).eval site = (res, after)) (T : TableName) :
    after.table T = site.table T := by
  unfold onDisk at h
  rw [Action.eval_ofFun] at h
  cases h
  rfl

theorem Mount.table?_eq (h : m.backend.storage = .table name)
    (hin : m.connection.tableIn name = .ok T) : m.table? = some T := by
  unfold Connection.tableIn at hin
  unfold table?
  rw [h]
  cases hd : m.database with
  | none => simp [connection, hd] at hin
  | some database => simpa [connection, hd] using hin

namespace Mount

/-- Work that fails within a session leaves the tables, and other work is done as it stands. -/
theorem eval_within_cases {work : Connection → Work α} {res : Except Error α}
    (h : (m.within work).eval site = (res, after)) :
    (∀ T, after.table T = site.table T) ∨ (work m.connection).eval site = (res, after) := by
  rw [eval_within] at h
  rcases hw : (work m.connection).eval site with ⟨e | a, t⟩ <;> rw [hw] at h
  · dsimp only at h
    split at h <;> cases h
    · exact .inl fun T => rfl
    · exact .inr rfl
  · exact .inr h

/-- An operation that a disk or a table performs, as far as it concerns one table. -/
theorem table_stored {work : Work Unit} {f : Instant → Table → Except Error Table}
    {res : Except Error Unit} (T : TableName)
    (hdisk : ∀ host, m.backend.storage = .disk host → ∃ g, work = Work.onDisk host g)
    (htable : ∀ name, m.backend.storage = .table name → work = m.connection.changeTable name f)
    (h : work.eval site = (res, after)) :
    after.table T = site.table T ∨ m.table? = some T ∧
      f site.now (site.table T) = .ok (after.table T) := by
  cases hs : m.backend.storage with
  | disk host =>
    obtain ⟨g, rfl⟩ := hdisk host hs
    exact .inl (Work.table_onDisk h T)
  | table name =>
    rw [htable name hs] at h
    rcases Connection.table_changeTable h T with hsame | ⟨hin, -, hop⟩
    · exact .inl hsame
    · exact .inr ⟨table?_eq hs hin, hop⟩

theorem table_within {work : Connection → Work Unit} {f : Instant → Table → Except Error Table}
    {res : Except Error Unit} (T : TableName)
    (hdisk : ∀ host, m.backend.storage = .disk host →
      ∃ g, work m.connection = Work.onDisk host g)
    (htable : ∀ name, m.backend.storage = .table name →
      work m.connection = m.connection.changeTable name f)
    (h : (m.within work).eval site = (res, after)) :
    after.table T = site.table T ∨ m.table? = some T ∧
      f site.now (site.table T) = .ok (after.table T) := by
  rcases eval_within_cases h with hsame | h
  · exact .inl (hsame T)
  · exact table_stored T hdisk htable h

theorem table_write {data : Bytes} {overwrite : Bool} {res : Except Error Unit}
    (h : (m.within fun c => c.write path data overwrite).eval site = (res, after))
    (T : TableName) :
    after.table T = site.table T ∨ m.table? = some T ∧
      (site.table T).write site.now path data overwrite = .ok (after.table T) :=
  table_within (f := fun now t => t.write now path data overwrite) T
    (fun _ hs => ⟨_, m.connection.write_onDisk hs _ _ _⟩)
    (fun _ hs => m.connection.write_onTable hs _ _ _) h

theorem table_append {data : Bytes} {res : Except Error Unit}
    (h : (m.within fun c => c.append path data).eval site = (res, after)) (T : TableName) :
    after.table T = site.table T ∨ m.table? = some T ∧
      (site.table T).append site.now path data = .ok (after.table T) :=
  table_within (f := fun now t => t.append now path data) T
    (fun _ hs => ⟨_, m.connection.append_onDisk hs _ _⟩)
    (fun _ hs => m.connection.append_onTable hs _ _) h

theorem table_connection_makeDirectory {res : Except Error Unit}
    (h : (m.connection.makeDirectory path).eval site = (res, after)) (T : TableName) :
    after.table T = site.table T ∨ m.table? = some T ∧
      (site.table T).makeDirectory site.now path = .ok (after.table T) :=
  table_stored (f := fun now t => t.makeDirectory now path) T
    (fun _ hs => ⟨_, m.connection.makeDirectory_onDisk hs _⟩)
    (fun _ hs => m.connection.makeDirectory_onTable hs _) h

theorem table_makeDirectory {res : Except Error Unit}
    (h : (m.within fun c => c.makeDirectory path).eval site = (res, after)) (T : TableName) :
    after.table T = site.table T ∨ m.table? = some T ∧
      (site.table T).makeDirectory site.now path = .ok (after.table T) := by
  rcases eval_within_cases h with hsame | h
  · exact .inl (hsame T)
  · exact table_connection_makeDirectory h T

theorem table_makeLink {target : String} {res : Except Error Unit}
    (h : (m.within fun c => c.makeLink path target).eval site = (res, after)) (T : TableName) :
    after.table T = site.table T ∨ m.table? = some T ∧
      (site.table T).makeLink site.now path target = .ok (after.table T) :=
  table_within (f := fun now t => t.makeLink now path target) T
    (fun _ hs => ⟨_, m.connection.makeLink_onDisk hs _ _⟩)
    (fun _ hs => m.connection.makeLink_onTable hs _ _) h

theorem table_setTimes {accessed modified : Option Moment} {res : Except Error Unit}
    (h : (m.within fun c => c.setTimes path accessed modified).eval site = (res, after))
    (T : TableName) :
    after.table T = site.table T ∨ m.table? = some T ∧
      (site.table T).setTimes path accessed modified = .ok (after.table T) :=
  table_within (f := fun _ t => t.setTimes path accessed modified) T
    (fun _ hs => ⟨_, m.connection.setTimes_onDisk hs _ _ _⟩)
    (fun _ hs => m.connection.setTimes_onTable hs _ _ _) h

theorem table_delete {recursive : Bool} {res : Except Error Bool}
    (h : (m.within fun c => c.delete path recursive).eval site = (res, after)) (T : TableName) :
    after.table T = site.table T ∨ m.table? = some T ∧
      ∃ found, (site.table T).delete path recursive = .ok (found, after.table T) := by
  rcases eval_within_cases h with hsame | h
  · exact .inl (hsame T)
  unfold Connection.delete at h
  split at h
  · exact .inl (Work.table_onDisk h T)
  · rename_i hstorage
    rcases Connection.table_withTable h T with hsame | ⟨hin, found, -, hop⟩
    · exact .inl hsame
    · exact .inr ⟨table?_eq hstorage hin, found, hop⟩

theorem table_move {src dest : String} {overwrite : Bool} {res : Except Error Unit}
    (h : (m.within fun c => c.move src dest overwrite).eval site = (res, after)) (T : TableName) :
    after.table T = site.table T ∨ m.table? = some T ∧
      (site.table T).move src dest overwrite = .ok (after.table T) := by
  rcases eval_within_cases h with hsame | h
  · exact .inl (hsame T)
  unfold Connection.move at h
  split at h
  · exact .inl (Work.table_onDisk h T)
  rename_i name hstorage
  -- The report of the move comes after it.
  obtain ⟨mid, res, hmid, hafter⟩ : ∃ mid res,
      (m.connection.changeTable name fun _ t => t.move src dest overwrite).eval site =
        (res, mid) ∧ after.table T = mid.table T := by
    rcases Action.eval_bind_cases h with ⟨e, hmid, -⟩ | ⟨⟨⟩, mid, hmid, h⟩
    · exact ⟨_, _, hmid, rfl⟩
    rcases Action.eval_ofExcept_cases h with ⟨e, -, -, rfl⟩ | ⟨S, -, h⟩
    · exact ⟨_, _, hmid, rfl⟩
    rcases Action.eval_ofExcept_cases h with ⟨e, -, -, rfl⟩ | ⟨D, -, h⟩
    · exact ⟨_, _, hmid, rfl⟩
    · cases h
      exact ⟨_, _, hmid, rfl⟩
  rw [hafter]
  rcases Connection.table_changeTable hmid T with hsame | ⟨hin, -, hop⟩
  · exact .inl hsame
  · exact .inr ⟨table?_eq hstorage hin, hop⟩

/-- What a mount reports is what its table does. -/
theorem statusIn_table (hT : m.table? = some T) (site : Site) (path : String) :
    m.statusIn site path = (site.table T).status path := by
  unfold table? at hT
  split at hT
  · rename_i hs hd
    cases hT
    simp only [statusIn, Connection.statusIn, connection, Connection.tableIn, hs, hd]
    rfl
  · cases hT

theorem list_table (hT : m.table? = some T) (site : Site) (path : String) :
    (m.connection.list path).eval site = ((site.table T).list path, site) := by
  unfold table? at hT
  split at hT
  · rename_i hs hd
    cases hT
    simp only [Connection.list, connection, Connection.tableIn, hs, hd]
    rfl
  · cases hT

/-- What a mount hands to its table, the table does. -/
theorem eval_changeTable (hT : m.table? = some T) (hs : m.backend.storage = .table name)
    (f : Instant → Table → Except Error Table) (site : Site) :
    (m.connection.changeTable name f).eval site = match f site.now (site.table T) with
      | .ok t => (.ok (), site.setTable T t)
      | .error e => (.error e, site) := by
  unfold table? at hT
  split at hT
  · rename_i hs' hd
    cases hT
    rw [hs] at hs'
    cases hs'
    simp only [connection, Connection.changeTable, Connection.withTable, Connection.tableIn, hd]
    rw [Action.eval_bind, Action.eval_ofExcept]
    dsimp only
    unfold Work.onTable
    rw [Action.eval_ofFun]
    dsimp only
    cases f site.now (site.table _) <;> rfl
  · cases hT

/-- Without a session, nothing reaches a table. -/
theorem eval_changeTable_of_none (hT : m.table? = none) (hs : m.backend.storage = .table name)
    (f : Instant → Table → Except Error Table) (site : Site) :
    (m.connection.changeTable name f).eval site = (.error .sessionMissing, site) := by
  unfold table? at hT
  cases hd : m.database with
  | some database => simp [hs, hd] at hT
  | none =>
    simp only [connection, Connection.changeTable, Connection.withTable, Connection.tableIn, hd]
    rfl

theorem storage_of_table? (hT : m.table? = some T) : ∃ name, m.backend.storage = .table name := by
  unfold table? at hT
  split at hT
  · exact ⟨_, by assumption⟩
  · cases hT

/-- A directory that is made in a table is there. -/
theorem makeDirectory_table (hT : m.table? = some T)
    (h : (m.connection.makeDirectory path).eval site = (.ok (), after)) :
    (site.table T).makeDirectory site.now path = .ok (after.table T) := by
  obtain ⟨name, hs⟩ := storage_of_table? hT
  have hchange := m.connection.makeDirectory_onTable hs path
  rw [hchange, eval_changeTable hT hs] at h
  cases hop : (site.table T).makeDirectory site.now path with
  | error e => rw [hop] at h; cases h
  | ok t =>
    rw [hop] at h
    cases h
    rw [Site.table_setTable, if_pos rfl]

/-- What a table has written is in it. -/
theorem write_table (hT : m.table? = some T) {data : Bytes} {overwrite : Bool} {t : Table}
    (hw : (site.table T).write site.now path data overwrite = .ok t) :
    (((m.within fun c => c.write path data overwrite).eval site).2).table T = t := by
  obtain ⟨name, hs⟩ := storage_of_table? hT
  have hchange := m.connection.write_onTable hs path data overwrite
  rw [eval_within, hchange, eval_changeTable hT hs, hw]
  dsimp only
  rw [Site.table_setTable, if_pos rfl]

end Mount

end MountSpace
