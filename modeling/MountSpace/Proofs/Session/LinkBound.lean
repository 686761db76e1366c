import MountSpace.Proofs.Session.Composition
import MountSpace.Proofs.Session.Operations
import Mathlib.Logic.Relation

/-!
# The bound on links is exact

Without a bound, walking goes on from link to link until a walk arrives or something fails, and may
go on forever: targets can make the path longer and longer.  With a bound of `n` links there are at
most `n + 1` walks.  They come to the same outcome if that takes no more than `n` links, and to too
many links otherwise.  A link counts as soon as it is met, also if its target is refused then.

## Main definitions

* `Atlas.Sends` — a walk meets a link that sends it on to another path.
* `Atlas.Ends` — what walking without a bound comes to, and over how many links.
* `Script.pieces` — how many pieces of work a script hands to the mounts.

Main statement: `Session.resolveWithin_exact`.
-/

namespace MountSpace

namespace Atlas

/-! ## Walking without a bound -/

/-- The walk from `current` meets a link, and `next` is the path on which it is sent. -/
def Sends (a : Atlas) (asked : Path) (follow : Bool) (current next : Path) : Prop :=
  ∃ m link target rest, a.leg asked follow current = .ok (m, .met link target rest) ∧
    onward m link target rest asked = .ok next

/-- Walking from `current` without a bound meets so many links and comes to the outcome. -/
inductive Ends (a : Atlas) (asked : Path) (follow : Bool) :
    Path → ℕ → Except Error Resolution → Prop
  /-- The walk fails. -/
  | failed {current : Path} {e : Error} : a.leg asked follow current = .error e →
      Ends a asked follow current 0 (.error e)
  /-- The walk arrives. -/
  | arrived {current : Path} {m : Mount} {r : Resolution} :
      a.leg asked follow current = .ok (m, .arrived r) → Ends a asked follow current 0 (.ok r)
  /-- The walk meets a link whose target is refused. -/
  | refused {current : Path} {m : Mount} {link target : Path} {rest : List String} {e : Error} :
      a.leg asked follow current = .ok (m, .met link target rest) →
      onward m link target rest asked = .error e → Ends a asked follow current 1 (.error e)
  /-- The walk meets a link and is sent on. -/
  | sent {current next : Path} {links : ℕ} {outcome : Except Error Resolution} :
      a.Sends asked follow current next → Ends a asked follow next links outcome →
      Ends a asked follow current (links + 1) outcome

variable {a : Atlas} {asked current next : Path} {follow : Bool} {links bound : ℕ}
variable {outcome : Except Error Resolution}

/-- A walk is sent on to one path only. -/
theorem Sends.unique {other : Path} (h : a.Sends asked follow current next)
    (h' : a.Sends asked follow current other) : next = other := by
  obtain ⟨m, link, target, rest, hleg, hnext⟩ := h
  obtain ⟨m', link', target', rest', hleg', hnext'⟩ := h'
  rw [hleg] at hleg'
  cases hleg'
  exact Except.ok.inj (hnext.symm.trans hnext')

/-- What comes after a link takes one link less. -/
theorem Ends.after (h : a.Ends asked follow current links outcome)
    (hs : a.Sends asked follow current next) :
    ∃ less, links = less + 1 ∧ a.Ends asked follow next less outcome := by
  cases h with
  | failed hleg =>
    obtain ⟨m, link, target, rest, hmet, -⟩ := hs
    rw [hleg] at hmet
    cases hmet
  | arrived hleg =>
    obtain ⟨m, link, target, rest, hmet, -⟩ := hs
    rw [hleg] at hmet
    cases hmet
  | refused hleg hrefused =>
    obtain ⟨m, link, target, rest, hmet, hnext⟩ := hs
    rw [hleg] at hmet
    cases hmet
    rw [hrefused] at hnext
    cases hnext
  | @sent _ other less _ hsent hend =>
    obtain rfl := hsent.unique hs
    exact ⟨less, rfl, hend⟩

theorem Ends.after_some (h : a.Ends asked follow current links outcome)
    (hs : Relation.TransGen (a.Sends asked follow) current next) :
    ∃ less < links, a.Ends asked follow next less outcome := by
  induction hs with
  | single hs =>
    obtain ⟨less, rfl, hend⟩ := h.after hs
    exact ⟨less, by omega, hend⟩
  | tail _ hs ih =>
    obtain ⟨left, hleft, hmid⟩ := ih
    obtain ⟨less, rfl, hend⟩ := hmid.after hs
    exact ⟨less, by omega, hend⟩

/-- Walking that comes back to a path never ends. -/
theorem not_ends_of_return (hs : Relation.TransGen (a.Sends asked follow) current current) :
    ¬a.Ends asked follow current links outcome := by
  induction links using Nat.strong_induction_on with
  | _ links ih =>
    intro h
    obtain ⟨less, hless, hend⟩ := h.after_some hs
    exact ih less hless hend

/-! ## Walking with a bound -/

/-- Walks come to the end of the process if that takes no more links than are allowed. -/
theorem Ends.outcome_trace (h : a.Ends asked follow current links outcome)
    (hle : links ≤ bound) : (a.trace asked follow bound current).outcome = outcome := by
  induction h generalizing bound with
  | failed hleg => rw [trace_of_error hleg]
  | arrived hleg => rw [trace_of_arrived hleg]
  | refused hleg hrefused =>
    obtain ⟨less, rfl⟩ := Nat.exists_eq_add_one.mpr hle
    rw [trace_of_met_refused hleg hrefused]
  | sent hs _ ih =>
    obtain ⟨m, link, target, rest, hleg, hnext⟩ := hs
    obtain ⟨less, rfl⟩ := Nat.exists_eq_add_one.mpr (Nat.zero_lt_of_lt hle)
    rw [trace_of_met hleg hnext]
    exact ih (by omega)

/-- Walks meet too many links if the process takes more than are allowed. -/
theorem outcome_trace_of_longer
    (h : ∀ links outcome, a.Ends asked follow current links outcome → bound < links) :
    (a.trace asked follow bound current).outcome = .error (.tooManyLinks asked.text) := by
  induction bound generalizing current with
  | zero =>
    cases hleg : a.leg asked follow current with
    | error e => exact absurd (h _ _ (.failed hleg)) (Nat.not_lt_zero 0)
    | ok found =>
    obtain ⟨m, leg⟩ := found
    cases leg with
    | arrived r => exact absurd (h _ _ (.arrived hleg)) (Nat.not_lt_zero 0)
    | met link target rest => rw [trace_of_met_zero hleg]
  | succ less ih =>
    cases hleg : a.leg asked follow current with
    | error e => exact absurd (h _ _ (.failed hleg)) (Nat.not_lt_zero _)
    | ok found =>
    obtain ⟨m, leg⟩ := found
    cases leg with
    | arrived r => exact absurd (h _ _ (.arrived hleg)) (Nat.not_lt_zero _)
    | met link target rest =>
    cases hnext : onward m link target rest asked with
    | error e =>
      have hlt := h _ _ (.refused hleg hnext)
      omega
    | ok next =>
      rw [trace_of_met hleg hnext]
      refine ih fun links outcome hend => ?_
      have hlt := h _ _ (.sent ⟨m, link, target, rest, hleg, hnext⟩ hend)
      omega

end Atlas

/-! ## Counting walks -/

/-- How many pieces of work the script hands to the mounts, from a site on. -/
def Script.pieces {α : Type} : Script α → Site → ℕ
  | .ofExcept _, _ | .report _, _ => 0
  | .within _ _, _ => 1
  | .attempt x, site => x.pieces site
  | .bind x f, site => x.pieces site +
    match (x.run .stores).eval site with
    | (.ok a, t) => (f a).pieces t
    | (.error _, _) => 0

namespace Script

variable {α β : Type} (s : Session) (site : Site)

@[simp] theorem pieces_pure (a : α) : (pure a : Script α).pieces site = 0 := rfl

@[simp] theorem pieces_fail (e : Error) : (fail e : Script α).pieces site = 0 := rfl

@[simp] theorem pieces_ofExcept (r : Except Error α) : (ofExcept r).pieces site = 0 := rfl

@[simp] theorem pieces_report (e : Event) : (report e).pieces site = 0 := rfl

@[simp] theorem pieces_within (m : Mount) (p : Piece α) : (within m p).pieces site = 1 := rfl

/-- Of two scripts one after the other, the second adds no more than it can at all. -/
theorem pieces_bind_le {x : Script α} {f : α → Script β} (first second : ℕ)
    (hx : x.pieces site ≤ first) (hf : ∀ a t, (f a).pieces t ≤ second) :
    (x >>= f).pieces site ≤ first + second := by
  change Script.pieces (.bind x f) site ≤ _
  rw [pieces]
  refine Nat.add_le_add hx ?_
  split
  · exact hf _ _
  · exact Nat.zero_le _

theorem pieces_leg_le (asked : Path) (follow : Bool) (current : Path) :
    (leg s asked follow current).pieces site ≤ 1 := by
  refine pieces_bind_le site 0 1 (by simp) fun m t => ?_
  exact pieces_bind_le t 1 0 (by simp) fun _ _ => by simp

/-- There is one walk more than links, at most. -/
theorem pieces_trace_le (asked : Path) (follow : Bool) (bound : ℕ) (current : Path) :
    (trace s asked follow bound current).pieces site ≤ bound + 1 := by
  induction bound generalizing current site with
  | zero =>
    rw [trace]
    refine pieces_bind_le site 1 0 (pieces_leg_le s site asked follow current) ?_
    rintro ⟨m, r | ⟨link, target, rest⟩⟩ t <;> simp
  | succ less ih =>
    have hstep : (trace s asked follow (less + 1) current).pieces site ≤ 1 + (less + 1) := by
      rw [trace]
      refine pieces_bind_le site 1 (less + 1) (pieces_leg_le s site asked follow current) ?_
      rintro ⟨m, r | ⟨link, target, rest⟩⟩ t
      · simp
      · have hsent (next : Path) (t : Site) : (report (.followed link next) >>= fun _ =>
            trace s asked follow less next).pieces t ≤ 0 + (less + 1) :=
          pieces_bind_le t 0 (less + 1) (by simp) fun _ u => ih u next
        refine (pieces_bind_le t 0 (0 + (less + 1)) (by simp) hsent).trans (by omega)
    omega

end Script

namespace Session

/-- **The bound on links is exact.**  Resolving with a bound of `n` links takes at most `n + 1`
walks.  It comes to what walking without a bound comes to over at most `n` links, and to too many
links if that takes more.  So a larger bound changes no other outcome, and where the walks come back
to a path there are too many links for every bound.  The failure names the given path, with the
default location if it has none. -/
theorem resolveWithin_exact (s : Session) (site : Site) (path : Path) (follow : Bool) (n : ℕ) :
    let first := Atlas.start s.standpoint path
    let resolver := Script.resolve { s with maxLinks := n } path follow
    let outcome (bound : ℕ) := ((s.resolveWithin bound path follow).eval site).1
    resolver.run .stores = s.resolveWithin n path follow ∧
      resolver.pieces site ≤ n + 1 ∧
      (∀ links x, (s.atlas site).Ends first follow first links x → links ≤ n → outcome n = x) ∧
      ((∀ links x, (s.atlas site).Ends first follow first links x → n < links) →
        outcome n = .error (.tooManyLinks first.text)) ∧
      (∀ more, n ≤ more → (∀ e, outcome n = .error e → e.kind ≠ .cyclicLink) →
        outcome more = outcome n) ∧
      (∀ p, Relation.ReflTransGen ((s.atlas site).Sends first follow) first p →
        Relation.TransGen ((s.atlas site).Sends first follow) p p →
        outcome n = .error (.tooManyLinks first.text)) := by
  intro first resolver outcome
  have houtcome (bound : ℕ) :
      outcome bound = ((s.atlas site).trace first follow bound first).outcome := by
    rw [← Atlas.resolve]
    exact congrArg Prod.fst (eval_resolveWithin s bound path follow site)
  have hlonger (h : ∀ links x, (s.atlas site).Ends first follow first links x → n < links) :
      outcome n = .error (.tooManyLinks first.text) := by
    rw [houtcome]
    exact Atlas.outcome_trace_of_longer h
  refine ⟨Script.run_resolve _ path follow, ?_, ?_, hlonger, ?_, ?_⟩
  · exact Script.pieces_trace_le _ site first follow n first
  · intro links x hends hle
    rw [houtcome]
    exact hends.outcome_trace hle
  · intro more hle hother
    rw [houtcome more]
    exact Atlas.outcome_trace_mono (houtcome n).symm hother hle
  · intro p hreached hreturn
    refine hlonger fun links x hends => ?_
    rcases Relation.reflTransGen_iff_eq_or_transGen.mp hreached with rfl | hreached
    · exact absurd hends (Atlas.not_ends_of_return hreturn)
    · obtain ⟨less, -, hends⟩ := hends.after_some hreached
      exact absurd hends (Atlas.not_ends_of_return hreturn)

/-- The link at `/l` leads to itself. -/
def hostWithCycle : Site :=
  (((alone (.ofHost "h")).makeLink (.text "l") (.text "/l") false).eval (.emptyHost "h")).2

/-- A link to itself is too many links whatever the bound. -/
theorem resolveWithin_exact_cycle :
    let s := alone (.ofHost "h")
    let p : Path := { location := ⟨some "file", none⟩, segments := ["l"] }
    (s.atlas hostWithCycle).Sends p true p p ∧ ∀ n,
      ((s.resolveWithin n p true).eval hostWithCycle).1 = .error (.tooManyLinks "file:///l") := by
  intro s p
  have hsends : (s.atlas hostWithCycle).Sends p true p p :=
    ⟨.ofHost "h", p, ⟨{}, ["l"], false⟩, [], by decide +kernel, by decide +kernel⟩
  refine ⟨hsends, fun n => ?_⟩
  obtain ⟨-, -, -, -, -, hreturn⟩ := resolveWithin_exact s hostWithCycle p true n
  exact hreturn p .refl (.single hsends)

end Session

end MountSpace
