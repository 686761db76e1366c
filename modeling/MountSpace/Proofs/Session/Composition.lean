import MountSpace.Proofs.Resolve.Extension
import MountSpace.Proofs.Session.Alike
import MountSpace.Proofs.Session.Ends

/-!
# Resolving a path in two parts

Every link that is followed carries the names behind it along.  So a path with names appended to it
leads past the end of the path without them, over the same links, and what is left of the bound is
there for the rest of the way.  Which path a caller began with shows in messages alone.

Main statements: `Atlas.outcome_trace_child`, `Session.resolveWithin_child`.
-/

namespace MountSpace

theorem SameOutcome.bind {α β γ δ : Type} {R : α → β → Prop} {S : γ → δ → Prop}
    {x : Except Error α} {y : Except Error β} {f : α → Except Error γ} {g : β → Except Error δ}
    (h : SameOutcome R x y) (hf : ∀ a b, R a b → SameOutcome S (f a) (g b)) :
    SameOutcome S (x >>= f) (y >>= g) := by
  cases h with
  | ok hab => exact hf _ _ hab
  | error hkind => exact .error hkind

namespace Atlas

variable {a : Atlas} {m : Mount} {names rest more : List String} {name : String}
variable {path current dir link target next : Path} {follow : Bool} {r : Resolution} {bound : ℕ}

/-! ## The path a caller began with -/

variable (asked other : Path)

theorem lookup_alike (reg : Registry) (p : Path) :
    SameOutcome Eq (reg.lookup p asked) (reg.lookup p other) := by
  unfold Registry.lookup
  split
  · exact .error rfl
  · exact .error rfl
  · split
    · exact .ok rfl
    · split <;> exact .error rfl
  · split
    · exact .ok rfl
    · exact .error rfl

theorem advance_alike (names : List String) (dir : Path) :
    SameOutcome Eq (a.advance m path asked follow dir names)
      (a.advance m path other follow dir names) := by
  induction names generalizing dir with
  | nil => exact .ok rfl
  | cons name rest ih =>
    unfold advance
    refine SameOutcome.bind (.of_refl (fun _ => rfl) _) ?_
    rintro found _ rfl
    cases found with
    | none => exact .ok rfl
    | some status =>
      dsimp only
      split
      · exact .of_refl (fun _ => rfl) _
      split
      · exact .ok rfl
      split
      · exact .error rfl
      · exact ih _

theorem leg_alike (follow : Bool) (current : Path) :
    SameOutcome Eq (a.leg asked follow current) (a.leg other follow current) := by
  unfold leg
  refine (lookup_alike asked other _ _).bind ?_
  rintro m _ rfl
  have hwalk : SameOutcome Eq (a.walk m current asked follow)
      (a.walk m current other follow) := by
    unfold walk
    split
    · exact .of_refl (fun _ => rfl) _
    · exact advance_alike asked other _ _
  refine hwalk.bind ?_
  rintro leg _ rfl
  exact .ok rfl

theorem onward_alike (rest : List String) :
    SameOutcome Eq (onward m link target rest asked) (onward m link target rest other) := by
  unfold onward
  split
  · exact .error rfl
  · exact .of_refl (fun _ => rfl) _

/-- Where walks end after one of them, with `bound` links still allowed. -/
theorem outcome_trace_eq (a : Atlas) (asked : Path) (follow : Bool) (bound : ℕ) (current : Path) :
    (a.trace asked follow bound current).outcome = (do
      match ← a.leg asked follow current with
      | (_, .arrived r) => return r
      | (m, .met link target rest) =>
        match bound with
        | 0 => throw (.tooManyLinks asked.text)
        | less + 1 =>
          let next ← onward m link target rest asked
          (a.trace asked follow less next).outcome) := by
  cases hleg : a.leg asked follow current with
  | error e => rw [trace_of_error hleg]; rfl
  | ok found =>
    obtain ⟨m, leg⟩ := found
    cases leg with
    | arrived r => rw [trace_of_arrived hleg]; rfl
    | met link target rest =>
      cases bound with
      | zero => rw [trace_of_met_zero hleg]; rfl
      | succ less =>
        cases ho : onward m link target rest asked with
        | error e => rw [trace_of_met_refused hleg ho]; simp [bind, Except.bind, ho]
        | ok next => rw [trace_of_met hleg ho]; simp [bind, Except.bind, ho]

/-- The path a caller began with makes no difference but in messages. -/
theorem trace_alike (follow : Bool) (bound : ℕ) (current : Path) :
    SameOutcome Eq (a.trace asked follow bound current).outcome
      (a.trace other follow bound current).outcome := by
  induction bound generalizing current with
  | zero =>
    rw [outcome_trace_eq, outcome_trace_eq]
    refine (leg_alike asked other follow current).bind ?_
    rintro ⟨m, leg⟩ _ rfl
    cases leg with
    | arrived r => exact .ok rfl
    | met link target rest => exact .error rfl
  | succ less ih =>
    rw [outcome_trace_eq, outcome_trace_eq]
    refine (leg_alike asked other follow current).bind ?_
    rintro ⟨m, leg⟩ _ rfl
    cases leg with
    | arrived r => exact .ok rfl
    | met link target rest =>
      refine (onward_alike asked other rest).bind ?_
      rintro next _ rfl
      exact ih next

variable {asked other : Path}

/-- What walks come to, they come to with more links allowed, unless there were too many. -/
theorem outcome_trace_mono {x : Except Error Resolution} {n : ℕ}
    (h : (a.trace asked follow bound current).outcome = x)
    (hx : ∀ e, x = .error e → e.kind ≠ .cyclicLink) (hle : bound ≤ n) :
    (a.trace asked follow n current).outcome = x := by
  induction bound generalizing current n with
  | zero =>
    rw [outcome_trace_eq] at h ⊢
    cases hleg : a.leg asked follow current with
    | error e => rw [hleg] at h; exact h
    | ok found =>
    obtain ⟨m, leg⟩ := found
    rw [hleg] at h
    cases leg with
    | arrived r => exact h
    | met link target rest => exact absurd rfl (hx (.tooManyLinks asked.text) h.symm)
  | succ less ih =>
    obtain ⟨left, rfl⟩ : ∃ left, n = left + 1 := Nat.exists_eq_add_one.mpr (by omega)
    rw [outcome_trace_eq] at h ⊢
    cases hleg : a.leg asked follow current with
    | error e => rw [hleg] at h; exact h
    | ok found =>
    obtain ⟨m, leg⟩ := found
    rw [hleg] at h
    cases leg with
    | arrived r => exact h
    | met link target rest =>
    cases hnext : onward m link target rest asked with
    | error e => simpa [bind, Except.bind, hnext] using h
    | ok next =>
      simp only [bind, Except.bind, hnext] at h ⊢
      exact ih h (by omega)

/-! ## Names that are carried along -/

/-- A walk that meets a link meets it on the way to names further down as well. -/
theorem advance_met_append {follow' : Bool} (path' other : Path)
    (hf : follow = true → follow' = true ∨ more ≠ [])
    (h : a.advance m path asked follow dir names = .ok (.met link target rest)) :
    a.advance m path' other follow' dir (names ++ more) =
      .ok (.met link target (rest ++ more)) := by
  induction names generalizing dir with
  | nil => cases h
  | cons name names ih =>
    rw [List.cons_append]
    unfold advance at h ⊢
    obtain ⟨found, hs, h⟩ := bind_eq_ok.mp h
    refine bind_eq_ok.mpr ⟨found, hs, ?_⟩
    cases found with
    | none => cases h
    | some status =>
    dsimp only at h ⊢
    split at h
    · rename_i hlink
      have hlink' : status.kind = .link ∧ (follow' = true ∨ names ++ more ≠ []) := by
        refine ⟨hlink.1, ?_⟩
        rcases hlink.2 with hfollow | hne
        · exact (hf hfollow).imp_right fun hmore => by simp [hmore]
        · exact .inr (by simp [hne])
      rw [if_pos hlink']
      split at h
      · cases h
        rfl
      · cases h
    rename_i hlink
    split at h
    · cases h
    rename_i hne
    split at h
    · cases h
    rename_i hfile
    have hlink' : ¬(status.kind = .link ∧ (follow' = true ∨ names ++ more ≠ [])) := fun hl =>
      hlink ⟨hl.1, .inr hne⟩
    rw [if_neg hlink', if_neg (by simp [hne]), if_neg hfile]
    exact ih h

theorem child_segments (ho : ∀ n ∈ current.segments, Ordinary n)
    (hm : ∀ n ∈ more, Ordinary n) : (current.child more).segments = current.segments ++ more :=
  Path.collapse_ordinary (fun n hn => (List.mem_append.mp hn).elim (ho n) (hm n)) _

theorem leg_met_child {follow' : Bool} (other : Path) (habs : current.absolute = true)
    (ho : ∀ n ∈ current.segments, Ordinary n) (hm : ∀ n ∈ more, Ordinary n)
    (hf : follow = true → follow' = true ∨ more ≠ [])
    (h : a.leg asked follow current = .ok (m, .met link target rest)) :
    a.leg other follow' (current.child more) = .ok (m, .met link target (rest ++ more)) := by
  have hne := segments_ne_nil_of_met habs h
  obtain ⟨hl, hwalk⟩ := leg_eq_ok.mp h
  have hl' : a.registry.lookup (current.child more) other = .ok m := by
    rw [lookup_congr (p := current) (q := current.child more) rfl]
    exact lookup_asked other hl
  refine leg_eq_ok.mpr ⟨hl', ?_⟩
  have hroot : ¬current.isRoot = true := by simp [Path.isRoot, hne]
  have hroot' : ¬(current.child more).isRoot = true := by
    simp [Path.isRoot, child_segments ho hm, hne]
  unfold walk at hwalk ⊢
  rw [if_neg hroot] at hwalk
  rw [if_neg hroot', child_segments ho hm]
  exact advance_met_append _ other hf hwalk

/-- A link sends the walk on with the names that are appended. -/
theorem onward_child {front : List String} (other : Path) (hfront : ∀ n ∈ front, Ordinary n)
    (hrest : ∀ n ∈ rest, Ordinary n) (hm : ∀ n ∈ more, Ordinary n) (ht : target.Normal)
    (h : onward m (m.place (front ++ [name])) target rest asked = .ok next) :
    onward m (m.place (front ++ [name])) target (rest ++ more) other = .ok (next.child more) := by
  have hboth : ∀ n ∈ rest ++ more, Ordinary n := fun n hn =>
    (List.mem_append.mp hn).elim (hrest n) (hm n)
  have hnext := (ordinary_of_onward hfront hrest ht h).2
  by_cases hrefused : target.location.scheme = none ∧ target.location.authority ≠ none
  · rw [onward_refused _ hrefused] at h
    cases h
  cases habs : target.absolute with
  | false =>
    rw [onward_relative hfront hrest ht habs] at h
    cases h
    rw [onward_relative hfront hboth ht habs, m.place_child (by simpa using hnext) hm]
    simp
  | true =>
    obtain ⟨first, hfirst, ha, hs, hl⟩ :=
      onward_absolute (m := m) (m.place (front ++ [name])) hrest ht habs hrefused
    obtain ⟨second, hsecond, ha', hs', hl'⟩ :=
      onward_absolute (m := m) (m.place (front ++ [name])) hboth ht habs hrefused
    rw [h] at hfirst
    cases hfirst
    rw [hsecond]
    refine congrArg Except.ok ?_
    have hsegments := child_segments hnext hm
    cases second
    cases next
    simp_all [Path.child]

/-- Walks that come to an end follow no link, or one that sends them on to that end. -/
theorem trace_eq_ok_cases {hops : List Hop}
    (h : a.trace asked follow bound current = ⟨hops, .ok r⟩) :
    (hops = [] ∧ ∃ m, a.leg asked follow current = .ok (m, .arrived r)) ∨
    ∃ less later m link target rest next, bound = less + 1 ∧ hops = ⟨link, next⟩ :: later ∧
      a.leg asked follow current = .ok (m, .met link target rest) ∧
      onward m link target rest asked = .ok next ∧
      a.trace asked follow less next = ⟨later, .ok r⟩ := by
  cases hleg : a.leg asked follow current with
  | error e => rw [trace_of_error hleg] at h; cases h
  | ok found =>
  obtain ⟨m, leg⟩ := found
  cases leg with
  | arrived last =>
    rw [trace_of_arrived hleg] at h
    cases h
    exact .inl ⟨rfl, m, rfl⟩
  | met link target rest =>
  cases bound with
  | zero => rw [trace_of_met_zero hleg] at h; cases h
  | succ less =>
  cases hnext : onward m link target rest asked with
  | error e => rw [trace_of_met_refused hleg hnext] at h; cases h
  | ok next =>
    rw [trace_of_met hleg hnext] at h
    rcases hlater : a.trace asked follow less next with ⟨later, outcome⟩
    rw [hlater] at h
    cases h
    exact .inr ⟨less, later, m, link, target, rest, next, rfl, rfl, rfl, hnext, hlater⟩

/-- No more links are followed than are allowed. -/
theorem length_hops_le {hops : List Hop}
    (h : a.trace asked follow bound current = ⟨hops, .ok r⟩) : hops.length ≤ bound := by
  induction hops generalizing bound current with
  | nil => simp
  | cons hop later ih =>
    rcases trace_eq_ok_cases h with ⟨hhops, -⟩ | ⟨less, _, _, _, _, _, _, rfl, hhops, -, -, hlater⟩
    · cases hhops
    · cases hhops
      simpa using ih hlater

/-- **Names that are appended are carried to the end of the path.**  The walks with names appended
follow the links that the walks without them follow, and go on from where those end. -/
theorem outcome_trace_child {first : Bool} {n : ℕ} {hops : List Hop} (ha : a.TargetsNormal)
    (other : Path) (habs : current.absolute = true) (ho : ∀ n ∈ current.segments, Ordinary n)
    (hm : ∀ n ∈ more, Ordinary n) (hf : first = true → follow = true ∨ more ≠ [])
    (h : a.trace asked first bound current = ⟨hops, .ok r⟩) (hk : hops.length ≤ n) :
    (a.trace other follow n (current.child more)).outcome =
      (a.trace other follow (n - hops.length) (r.path.child more)).outcome := by
  induction hops generalizing bound current n with
  | nil =>
    rcases trace_eq_ok_cases h with ⟨-, m, hleg⟩ | ⟨_, _, _, _, _, _, _, -, hhops, -⟩
    · rw [path_of_leg hleg]
      rfl
    · cases hhops
  | cons hop later ih =>
    rcases trace_eq_ok_cases h with
      ⟨hhops, -⟩ | ⟨less, _, m, link, target, rest, next, -, hhops, hleg, hnext, hlater⟩
    · cases hhops
    cases hhops
    obtain ⟨left, rfl⟩ : ∃ left, n = left + 1 := Nat.exists_eq_add_one.mpr (by simp at hk; omega)
    obtain ⟨front, name, status, hsplit, rfl, hs, hkind, ht⟩ := met_of_leg habs ho hleg
    rw [hsplit] at ho
    have hfront : ∀ n ∈ front, Ordinary n := fun n hn => ho n (by simp [hn])
    have hrest : ∀ n ∈ rest, Ordinary n := fun n hn => ho n (by simp [hn])
    have htarget := ha _ _ _ _ hs hkind ht
    obtain ⟨hna, hno⟩ := ordinary_of_onward hfront hrest htarget hnext
    rw [trace_of_met (leg_met_child other habs (by rwa [hsplit]) hm hf hleg)
      (onward_child other hfront hrest hm htarget hnext), ih hna hno hlater (by simpa using hk)]
    simp

end Atlas

namespace Session

variable {s : Session} {site : Site} {p : Path} {names : List String} {r : Resolution}

/-- Resolving with a bound ends where its walks end. -/
theorem eval_resolveWithin (s : Session) (bound : ℕ) (path : Path) (follow : Bool) (site : Site) :
    (s.resolveWithin bound path follow).eval site =
      (((s.atlas site).resolve s.standpoint bound path follow).outcome,
        site.told (hopReports ((s.atlas site).resolve s.standpoint bound path follow).hops)) :=
  eval_resolve { s with maxLinks := bound } path follow site

/-- **Resolving composes.**  When a path leads over some links to an end, names below it lead where
they lead from that end with as many links less, or fail in the same way. -/
theorem resolveWithin_child (s : Session) (site : Site) (hp : p.Complete) {bound : ℕ}
    {hops : List Hop} (h : (s.atlas site).resolve s.standpoint bound p true = ⟨hops, .ok r⟩)
    (hne : names ≠ []) (ho : ∀ n ∈ names, Ordinary n) {n : ℕ} (hk : hops.length ≤ n)
    (follow : Bool) :
    SameOutcome Eq ((s.resolveWithin n (p.child names) follow).eval site).1
      ((s.resolveWithin (n - hops.length) (r.path.child names) follow).eval site).1 := by
  have hstart : ∀ q : Path, q.location.isStated = true → Atlas.start s.standpoint q = q :=
    fun q hq => if_pos hq
  have hend : r.path.location.isStated = true :=
    Atlas.isStated_of_resolve (congrArg Trace.outcome h)
  rw [Atlas.resolve, hstart p hp.stated] at h
  rw [eval_resolveWithin, eval_resolveWithin, Atlas.resolve, Atlas.resolve,
    hstart (p.child names) hp.stated, hstart (r.path.child names) hend,
    Atlas.outcome_trace_child (s.targetsNormal site) _ hp.absolute
      (hp.normal.ordinary hp.absolute) ho (fun _ => .inr hne) h hk]
  exact Atlas.trace_alike _ _ follow _ _

/-- Below a link to a directory, one link of the bound is spent. -/
theorem resolveWithin_child_behind_link :
    let s := alone (.ofHost "h")
    let p : Path := { location := ⟨some "file", none⟩, segments := ["l"] }
    p.Complete ∧ ∃ hops r, (s.atlas hostWithLink).resolve s.standpoint 32 p true = ⟨hops, .ok r⟩ ∧
      r.path.text = "file:///d" ∧ hops.length = 1 ∧
      SameOutcome Eq ((s.resolveWithin 1 (p.child ["x"]) false).eval hostWithLink).1
        ((s.resolveWithin (1 - hops.length) (r.path.child ["x"]) false).eval hostWithLink).1 := by
  intro s p
  have hp : p.Complete := ⟨Path.normal_of_ordinary rfl (by decide), rfl, rfl⟩
  have hends : ((s.atlas hostWithLink).resolve s.standpoint 32 p true).outcome.toOption.map
      (fun r => r.path.text) = some "file:///d" := by decide +kernel
  have hlinks : ((s.atlas hostWithLink).resolve s.standpoint 32 p true).hops.length = 1 := by
    decide +kernel
  rcases htrace : (s.atlas hostWithLink).resolve s.standpoint 32 p true with ⟨hops, e | r⟩ <;>
    rw [htrace] at hends hlinks
  · cases hends
  · refine ⟨hp, hops, r, rfl, by simpa [Except.toOption] using hends, hlinks, ?_⟩
    exact resolveWithin_child s hostWithLink hp htrace (by decide) (by decide) hlinks.le false

end Session

end MountSpace
