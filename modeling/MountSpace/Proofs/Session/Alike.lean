import MountSpace.Proofs.Session.Requests

/-!
# Work that comes to the same

Nothing that is done to the stores depends on the journal, and a path that is only named in
messages makes no difference to what is done.  Two pieces of work come to the same when, started
from sites that hold the same, they end with related values or with failures of one kind, in sites
that again hold the same.

## Main definitions

* `Site.Agrees` — two sites that hold the same.
* `SameOutcome` — related values, or failures of one kind.
* `Work.AlikeOn` — two pieces of work that come to the same from what one site holds.
* `Work.AlikeUnless` — the same, except where the second fails in a way that is spared.
* `Work.Steady` — work that never looks at the journal.

Main statements: `Work.AlikeOn.bind`, `Work.AlikeUnless.bind_quiet`, `Mount.steady_within`.
-/

namespace MountSpace

/-! ## Sites and outcomes -/

/-- The two sites hold the same; their journals may differ. -/
structure Site.Agrees (a b : Site) : Prop where
  disks : a.disks = b.disks
  tables : a.tables = b.tables
  now : a.now = b.now

namespace Site.Agrees

variable {a b c : Site}

theorem refl (a : Site) : a.Agrees a := ⟨rfl, rfl, rfl⟩

theorem symm (h : a.Agrees b) : b.Agrees a := ⟨h.disks.symm, h.tables.symm, h.now.symm⟩

theorem trans (h : a.Agrees b) (h' : b.Agrees c) : a.Agrees c :=
  ⟨h.disks.trans h'.disks, h.tables.trans h'.tables, h.now.trans h'.now⟩

theorem told (a : Site) (events : List Event) : (a.told events).Agrees a := ⟨rfl, rfl, rfl⟩

theorem disk (h : a.Agrees b) (host : String) : a.disk host = b.disk host := by
  unfold Site.disk
  rw [h.disks, h.now]

theorem table (h : a.Agrees b) (T : TableName) : a.table T = b.table T := by
  unfold Site.table
  rw [h.tables]

theorem setDisk (h : a.Agrees b) (host : String) (d : Disk) :
    (a.setDisk host d).Agrees (b.setDisk host d) :=
  ⟨congrArg (setEntry host d) h.disks, h.tables, h.now⟩

theorem setTable (h : a.Agrees b) (T : TableName) (t : Table) :
    (a.setTable T t).Agrees (b.setTable T t) :=
  ⟨h.disks, congrArg (setEntry T t) h.tables, h.now⟩

theorem restoreTables {before before' : Site} (hbefore : before.Agrees before')
    (h : a.Agrees b) : (before.restoreTables a).Agrees (before'.restoreTables b) :=
  ⟨h.disks, hbefore.tables, h.now⟩

end Site.Agrees

/-- The two outcomes are related values, or failures of one kind. -/
inductive SameOutcome {α β : Type} (R : α → β → Prop) : Except Error α → Except Error β → Prop
  | ok {x : α} {y : β} (h : R x y) : SameOutcome R (.ok x) (.ok y)
  | error {e f : Error} (h : e.kind = f.kind) : SameOutcome R (.error e) (.error f)

namespace SameOutcome

theorem of_refl {α : Type} {R : α → α → Prop} (hR : ∀ x, R x x) (r : Except Error α) :
    SameOutcome R r r := by
  cases r with
  | ok x => exact .ok (hR x)
  | error e => exact .error rfl

theorem mono_of_ok {α β : Type} {R S : α → β → Prop} {r : Except Error α}
    {r' : Except Error β} (h : SameOutcome R r r') (hRS : ∀ a b, r = .ok a → R a b → S a b) :
    SameOutcome S r r' := by
  cases h with
  | ok hab => exact .ok (hRS _ _ rfl hab)
  | error hkind => exact .error hkind

theorem mono {α β : Type} {R S : α → β → Prop} {r : Except Error α}
    {r' : Except Error β} (h : SameOutcome R r r') (hRS : ∀ a b, R a b → S a b) :
    SameOutcome S r r' := h.mono_of_ok fun a b _ => hRS a b

theorem map {α β γ δ : Type} {R : α → β → Prop} {S : γ → δ → Prop}
    {r : Except Error α} {r' : Except Error β} {f : α → γ} {g : β → δ} (h : SameOutcome R r r')
    (hf : ∀ a b, R a b → S (f a) (g b)) : SameOutcome S (r.map f) (r'.map g) := by
  cases h with
  | ok hab => exact .ok (hf _ _ hab)
  | error hkind => exact .error hkind

end SameOutcome

/-- A failure of a kind that is spared. -/
def FailsAs {α : Type} (spared : ErrorKind → Prop) (x : Except Error α) : Prop :=
  ∃ e, x = .error e ∧ spared e.kind

/-! ## Work -/

namespace Work

variable {α β γ δ : Type} {R : α → β → Prop} {S : γ → δ → Prop} {site : Site}
  {v : Work α} {w : Work β} {f : α → Work γ} {g : β → Work δ}

/-- The two come to the same from wherever the same is held as in `site`. -/
def AlikeOn (site : Site) (R : α → β → Prop) (v : Work α) (w : Work β) : Prop :=
  ∀ a b, a.Agrees site → b.Agrees site →
    SameOutcome R (v.eval a).1 (w.eval b).1 ∧ (v.eval a).2.Agrees (w.eval b).2

/-- What the work comes to depends on nothing but what the site holds. -/
def Steady (w : Work α) : Prop := ∀ site, AlikeOn site Eq w w

theorem alikeOn_ofExcept {x : Except Error α} {y : Except Error β} (h : SameOutcome R x y) :
    AlikeOn site R (.ofExcept x) (.ofExcept y) := fun _ _ ha hb => ⟨h, ha.trans hb.symm⟩

theorem alikeOn_pure {x : α} {y : β} (h : R x y) : AlikeOn site R (pure x) (pure y) :=
  fun _ _ ha hb => ⟨.ok h, ha.trans hb.symm⟩

theorem alikeOn_throw {e e' : Error} (h : e.kind = e'.kind) :
    AlikeOn site R (throw e) (throw e') := fun _ _ ha hb => ⟨.error h, ha.trans hb.symm⟩

theorem alikeOn_report (e e' : Event) : AlikeOn site Eq (report e) (report e') :=
  fun _ _ ha hb => ⟨.ok rfl, (Site.Agrees.told _ _).trans
    ((ha.trans hb.symm).trans (Site.Agrees.told _ _).symm)⟩

/-- One after the other: what comes second starts from whatever sites the first ends in. -/
theorem AlikeOn.bind (h : AlikeOn site R v w)
    (hf : ∀ x y, R x y → ∀ after, AlikeOn after S (f x) (g y)) :
    AlikeOn site S (v >>= f) (w >>= g) := by
  intro a b ha hb
  obtain ⟨hout, hsite⟩ := h a b ha hb
  rw [Action.eval_bind, Action.eval_bind]
  rcases hv : v.eval a with ⟨r, a'⟩
  rcases hw : w.eval b with ⟨r', b'⟩
  rw [hv, hw] at hout hsite
  dsimp only at hout hsite
  cases hout with
  | ok hxy => exact hf _ _ hxy b' a' b' hsite (.refl b')
  | error hkind => exact ⟨.error hkind, hsite⟩

theorem AlikeOn.ite {c : Prop} [Decidable c] {v' : Work α} {w' : Work β}
    (h : AlikeOn site R v w) (h' : AlikeOn site R v' w') :
    AlikeOn site R (if c then v else v') (if c then w else w') := by
  split
  · exact h
  · exact h'

/-- The same check fails on both sides, or lets the rest run on both. -/
theorem AlikeOn.check {c : Prop} [Decidable c] {e e' : Error} {k : Unit → Work α}
    {l : Unit → Work β} (hkind : e.kind = e'.kind) (h : AlikeOn site R (k ()) (l ())) :
    AlikeOn site R (if c then throw e >>= k else k ()) (if c then throw e' >>= l else l ()) := by
  split
  · exact fun _ _ ha hb => ⟨.error hkind, ha.trans hb.symm⟩
  · exact h

/-! ## Failures that are spared -/

section Spared

variable {spared : ErrorKind → Prop}

/-- The two come to the same from wherever the same is held as in `site`, unless the second fails
in a way that is spared. -/
def AlikeUnless (spared : ErrorKind → Prop) (site : Site) (R : α → β → Prop) (v : Work α)
    (w : Work β) : Prop :=
  ∀ a b, a.Agrees site → b.Agrees site → FailsAs spared (w.eval b).1 ∨
    SameOutcome R (v.eval a).1 (w.eval b).1 ∧ (v.eval a).2.Agrees (w.eval b).2

theorem AlikeOn.unless (h : AlikeOn site R v w) : AlikeUnless spared site R v w :=
  fun a b ha hb => .inr (h a b ha hb)

theorem alikeUnless_throw {e : Error} (h : spared e.kind) :
    AlikeUnless spared site R v (throw e) := fun _ _ _ _ => .inl ⟨e, rfl, h⟩

theorem AlikeUnless.check {c : Prop} [Decidable c] {e e' : Error} {k : Unit → Work α}
    {l : Unit → Work β} (hkind : e.kind = e'.kind) (h : AlikeUnless spared site R (k ()) (l ())) :
    AlikeUnless spared site R (if c then throw e >>= k else k ())
      (if c then throw e' >>= l else l ()) := by
  split
  · exact fun _ _ ha hb => .inr ⟨.error hkind, ha.trans hb.symm⟩
  · exact h

/-- After work that leaves only reports, what comes second starts from the same holdings. -/
theorem AlikeUnless.bind_quiet (h : AlikeUnless spared site R v w) (hv : Quiet v) (hw : Quiet w)
    (hf : ∀ x y, R x y → AlikeUnless spared site S (f x) (g y)) :
    AlikeUnless spared site S (v >>= f) (w >>= g) := by
  intro a b ha hb
  have hout := h a b ha hb
  obtain ⟨events, ha'⟩ := hv a
  obtain ⟨more, hb'⟩ := hw b
  rw [Action.eval_bind, Action.eval_bind]
  rcases hva : v.eval a with ⟨r, a'⟩
  rcases hwb : w.eval b with ⟨r', b'⟩
  rw [hva] at hout ha'
  rw [hwb] at hout hb'
  dsimp only at hout ha' hb'
  rcases hout with ⟨e, rfl, hspared⟩ | ⟨hout, hsite⟩
  · exact .inl ⟨e, rfl, hspared⟩
  cases hout with
  | ok hxy =>
    subst ha' hb'
    exact hf _ _ hxy _ _ ((Site.Agrees.told a events).trans ha)
      ((Site.Agrees.told b more).trans hb)
  | error hkind => exact .inr ⟨.error hkind, hsite⟩

theorem AlikeUnless.map (h : AlikeUnless spared site R v w) {i : α → γ} {j : β → δ}
    (hij : ∀ x y, R x y → S (i x) (j y)) : AlikeUnless spared site S (i <$> v) (j <$> w) := by
  intro a b ha hb
  rw [Action.eval_map, Action.eval_map]
  rcases h a b ha hb with ⟨e, he, hspared⟩ | ⟨hout, hsite⟩
  · exact .inl ⟨e, congrArg (Except.map j) he, hspared⟩
  · exact .inr ⟨hout.map hij, hsite⟩

/-- A failure that is looked at is one of a kind, or one that is spared. -/
theorem AlikeUnless.attempt (h : AlikeUnless spared site R v w) (hv : Quiet v) (hw : Quiet w) :
    AlikeOn site (fun x y => FailsAs spared y ∨ SameOutcome R x y) (Action.attempt v)
      (Action.attempt w) := by
  intro a b ha hb
  obtain ⟨events, ha'⟩ := hv a
  obtain ⟨more, hb'⟩ := hw b
  rw [Action.eval_attempt, Action.eval_attempt]
  refine ⟨.ok ((h a b ha hb).imp_right And.left), ?_⟩
  dsimp only
  rw [ha', hb']
  exact (Site.Agrees.told _ _).trans
    ((ha.trans hb.symm).trans (Site.Agrees.told _ _).symm)

/-- Failures of some kinds are answered, others are passed on, among them all that are spared. -/
theorem AlikeUnless.caught {c : ErrorKind → Prop} [DecidablePred c] {answer : γ}
    {f : Except Error α → Work γ} {g : Except Error β → Work γ}
    (h : AlikeUnless spared site R v w) (hv : Quiet v) (hw : Quiet w)
    (hc : ∀ k, spared k → ¬c k)
    (hf : ∀ e, f (.error e) = if c e.kind then pure answer else throw e)
    (hg : ∀ e, g (.error e) = if c e.kind then pure answer else throw e)
    (hok : ∀ x y, R x y → AlikeUnless spared site Eq (f (.ok x)) (g (.ok y))) :
    AlikeUnless spared site Eq (Action.attempt v >>= f) (Action.attempt w >>= g) := by
  refine (h.attempt hv hw).unless.bind_quiet hv.attempt hw.attempt fun x y hxy => ?_
  rcases hxy with ⟨e, rfl, hspared⟩ | hxy
  · rw [hg, if_neg (hc _ hspared)]
    exact alikeUnless_throw hspared
  cases hxy with
  | ok hxy => exact hok _ _ hxy
  | error hkind =>
    rw [hf, hg, hkind]
    exact ((alikeOn_pure rfl).ite (alikeOn_throw hkind)).unless

end Spared

/-! ## Work that is steady -/

theorem Steady.bind {w : Work α} {f : α → Work γ} (h : Steady w) (hf : ∀ x, Steady (f x)) :
    Steady (w >>= f) := fun site => (h site).bind fun x _ hxy after => hxy ▸ hf x after

/-- The same steady work on both sides comes to the same, whatever comes second. -/
theorem Steady.bind_alikeOn {w : Work α} {f : α → Work γ} {g : α → Work δ} (h : Steady w)
    (hfg : ∀ x after, AlikeOn after S (f x) (g x)) : AlikeOn site S (w >>= f) (w >>= g) :=
  (h site).bind fun x _ hxy after => hxy ▸ hfg x after

theorem steady_pure (x : α) : Steady (pure x) := fun _ => alikeOn_pure rfl

theorem steady_ofExcept (r : Except Error α) : Steady (.ofExcept r) := fun _ =>
  alikeOn_ofExcept (.of_refl (fun _ => rfl) r)

theorem steady_report (e : Event) : Steady (report e) := fun _ => alikeOn_report e e

theorem steady_peek {f : Site → Except Error α} (hf : ∀ a b, a.Agrees b → f a = f b) :
    Steady (.peek f) := by
  intro site a b ha hb
  have hab := ha.trans hb.symm
  refine ⟨?_, hab⟩
  rw [Action.eval_peek, Action.eval_peek, hf a b hab]
  exact .of_refl (fun _ => rfl) _

theorem steady_onDisk (host : String) (f : Instant → Disk → Except Error α × Disk) :
    Steady (onDisk host f) := by
  intro site a b ha hb
  have hab := ha.trans hb.symm
  unfold onDisk
  rw [Action.eval_ofFun, Action.eval_ofFun, hab.now, hab.disk host]
  exact ⟨.of_refl (fun _ => rfl) _, hab.setDisk host _⟩

theorem steady_onTable (T : TableName) (f : Instant → Table → Except Error (α × Table)) :
    Steady (onTable T f) := by
  intro site a b ha hb
  have hab := ha.trans hb.symm
  unfold onTable
  rw [Action.eval_ofFun, Action.eval_ofFun, hab.now, hab.table T]
  cases f b.now (b.table T) with
  | ok found => exact ⟨.ok rfl, hab.setTable T _⟩
  | error e => exact ⟨.error rfl, hab⟩

end Work

/-! ## Connections -/

namespace Connection

variable {α : Type} (c : Connection)

theorem statusIn_congr {a b : Site} (h : a.Agrees b) (path : String) :
    c.statusIn a path = c.statusIn b path := by
  unfold statusIn
  cases c.backend.storage with
  | disk host => simp only [h.disk host]
  | table name => simp only [h.table]

theorem steady_withTable (name : String) (f : Instant → Table → Except Error (α × Table)) :
    (c.withTable name f).Steady :=
  (Work.steady_ofExcept _).bind fun T => Work.steady_onTable T f

theorem steady_changeDisk (host : String) (f : Instant → Disk → Except Error Disk) :
    (changeDisk host f).Steady := Work.steady_onDisk host _

theorem steady_status (path : String) : (c.status path).Steady :=
  Work.steady_peek fun _ _ h => c.statusIn_congr h path

theorem steady_content (path : String) : (c.content path).Steady := by
  refine Work.steady_peek fun a b h => ?_
  cases c.backend.storage with
  | disk host => simp only [h.disk host]
  | table name => simp only [h.table]

theorem steady_list (path : String) : (c.list path).Steady := by
  refine Work.steady_peek fun a b h => ?_
  cases c.backend.storage with
  | disk host => simp only [h.disk host]
  | table name => simp only [h.table]

theorem steady_write (path : String) (data : Bytes) (overwrite : Bool) :
    (c.write path data overwrite).Steady := by
  unfold write
  split
  · exact Work.steady_onDisk _ _
  · exact c.steady_withTable _ _

theorem steady_makeDirectory (path : String) : (c.makeDirectory path).Steady := by
  unfold makeDirectory
  split
  · exact steady_changeDisk _ _
  · exact c.steady_withTable _ _

theorem steady_makeLink (path target : String) : (c.makeLink path target).Steady := by
  unfold makeLink
  split
  · exact steady_changeDisk _ _
  · exact c.steady_withTable _ _

theorem steady_delete (path : String) (recursive : Bool) :
    (c.delete path recursive).Steady := by
  unfold delete
  split
  · exact Work.steady_onDisk _ _
  · exact c.steady_withTable _ _

theorem steady_move (src dest : String) (overwrite : Bool) :
    (c.move src dest overwrite).Steady := by
  unfold move
  split
  · exact Work.steady_onDisk _ _
  · exact (c.steady_withTable _ _).bind fun _ => (Work.steady_ofExcept _).bind fun _ =>
      (Work.steady_ofExcept _).bind fun _ => Work.steady_report _

theorem steady_setTimes (path : String) (accessed modified : Option Moment) :
    (c.setTimes path accessed modified).Steady := by
  unfold setTimes
  split
  · exact steady_changeDisk _ _
  · exact c.steady_withTable _ _

end Connection

/-- Work within a session is steady when the work itself is: what is put back is what the site
held. -/
theorem Mount.steady_within {α : Type} (m : Mount) {work : Connection → Work α}
    (h : ∀ c, (work c).Steady) : (m.within work).Steady := by
  intro site a b ha hb
  obtain ⟨hout, hsite⟩ := h m.connection site a b ha hb
  rw [eval_within, eval_within]
  rcases hwa : (work m.connection).eval a with ⟨r, a'⟩
  rcases hwb : (work m.connection).eval b with ⟨r', b'⟩
  rw [hwa, hwb] at hout hsite
  dsimp only at hout hsite
  cases hout with
  | ok hxy => exact ⟨.ok hxy, hsite⟩
  | error hkind =>
    refine ⟨.error hkind, ?_⟩
    dsimp only
    split
    · exact .restoreTables (ha.trans hb.symm) hsite
    · exact hsite

/-! ## Sessions -/

namespace Session

theorem trace_congr (s : Session) {a b : Site} (h : a.Agrees b) (path : Path) (follow : Bool) :
    s.trace a path follow = s.trace b path follow := by
  have hatlas : s.atlas a = s.atlas b := by
    unfold atlas Mount.statusIn
    simp only [Connection.statusIn_congr _ h]
  rw [trace, trace, hatlas]

theorem steady_makeDirectories (c : Connection) (names : List String) (dir : Path) :
    (makeDirectories c dir names).Steady := by
  induction names generalizing dir with
  | nil => exact Work.steady_pure _
  | cons name rest ih =>
    unfold makeDirectories
    refine (c.steady_status _).bind fun found => ?_
    split
    · exact (c.steady_makeDirectory _).bind fun _ => ih _
    · exact ih _

theorem steady_makeParents (r : Resolution) : (makeParents r).Steady := by
  unfold makeParents
  split
  · exact Work.steady_pure _
  · exact Mount.steady_within _ fun c => steady_makeDirectories c _ _

theorem steady_hasChildren (r : Resolution) : (hasChildren r).Steady :=
  Mount.steady_within _ fun c => (c.steady_list _).bind fun _ => Work.steady_pure _

end Session

end MountSpace
