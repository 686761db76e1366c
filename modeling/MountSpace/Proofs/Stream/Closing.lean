import MountSpace.Proofs.Outcome
import MountSpace.Stream.Output

/-!
# Bytes are handed over once

However an output stream is used, its bytes are handed over at most once: by the step that closes
it, if that is a close or a block that ends without a failure, and then all bytes that were taken
before, in order.  What comes later finds the stream closed, also when handing over failed.

## Main definitions

* `OutputStream.Use` — a step: a write, a close, a discard or a block.
* `OutputStream.Use.closes`, `OutputStream.Use.handsOver`, `OutputStream.Use.chunks` — what a step
  is on an open stream.
* `OutputStream.Use.run` — steps one after the other, whether they fail or not.
* `OutputStream.Commit.recorded` — handing over, with a record of what was handed over.

Main statement: `OutputStream.Use.handed_over_once`.
-/

namespace MountSpace

namespace OutputStream

variable {σ α : Type} {s : OutputStream} {commit : Commit σ}

/-! ## Single operations -/

theorem eval_write (hs : s.closed = false) (data : Bytes) (t : σ) : (write data).eval (s, t) =
    (.ok data.length, ({ s with buffer := s.buffer ++ data }, t)) := by
  obtain ⟨path, buffer, closed⟩ := s
  obtain rfl : closed = false := hs
  rfl

theorem eval_write_of_closed (hs : s.closed = true) (data : Bytes) (t : σ) :
    (write data).eval (s, t) = (.error (.closedOutput s.path.text), (s, t)) := by
  obtain ⟨path, buffer, closed⟩ := s
  obtain rfl : closed = true := hs
  rfl

theorem eval_writeAll (hs : s.closed = false) (chunks : List Bytes) (t : σ) :
    (writeAll chunks).eval (s, t) =
      (.ok (chunks.map List.length), ({ s with buffer := s.buffer ++ chunks.flatten }, t)) := by
  induction chunks generalizing s with
  | nil =>
    rw [List.flatten_nil, List.append_nil]
    rfl
  | cons data more ih =>
    rw [writeAll, Action.eval_bind, eval_write hs]
    dsimp only
    rw [Action.eval_bind, ih (s := { s with buffer := s.buffer ++ data }) hs, List.flatten_cons,
      ← List.append_assoc]
    rfl

theorem eval_writeAll_of_closed (hs : s.closed = true) (chunks : List Bytes) (t : σ) :
    (writeAll chunks).eval (s, t) =
      (if chunks = [] then .ok [] else .error (.closedOutput s.path.text), (s, t)) := by
  cases chunks with
  | nil => rfl
  | cons data more =>
    rw [writeAll, Action.eval_bind, eval_write_of_closed hs, if_neg (List.cons_ne_nil _ _)]

/-- Closing hands over all bytes, and leaves the stream closed also when that fails. -/
theorem eval_close (hs : s.closed = false) (t : σ) :
    (close commit).eval (s, t) = match (commit s.buffer).eval t with
      | (.ok _, t) => (.ok (), ({ s with closed := true, buffer := [] }, t))
      | (.error e, t) => (.error e, ({ s with closed := true }, t)) := by
  obtain ⟨path, buffer, closed⟩ := s
  obtain rfl : closed = false := hs
  unfold close
  rw [Action.eval_bind, Action.eval_get]
  dsimp only
  rw [if_pos (by decide), Action.eval_bind, Action.eval_modify]
  dsimp only
  rw [Action.eval_bind, Action.eval_ofFun]
  rcases (commit buffer).eval t with ⟨e | u, t⟩ <;> rfl

theorem eval_close_of_closed (hs : s.closed = true) (t : σ) :
    (close commit).eval (s, t) = (.ok (), (s, t)) := by
  obtain ⟨path, buffer, closed⟩ := s
  obtain rfl : closed = true := hs
  rfl

/-- A block closes or discards the stream as its body leaves it. -/
theorem eval_block (body : Writing σ α) (x : OutputStream × σ) :
    (block commit body).eval x = match body.eval x with
      | (.ok a, y) => (((close commit).eval y).1.map fun _ => a, ((close commit).eval y).2)
      | (.error e, (s, t)) => (.error e, ({ s with closed := true, buffer := [] }, t)) := by
  unfold block
  rw [Action.eval_bind, Action.eval_attempt]
  rcases body.eval x with ⟨e | a, y⟩
  · rfl
  · dsimp only
    rw [Action.eval_bind]
    rcases (close commit).eval y with ⟨e | u, z⟩ <;> rfl

/-! ## Steps -/

/-- A step in the use of a stream. -/
inductive Use
  /-- Bytes are written. -/
  | write (data : Bytes)
  /-- The stream is closed. -/
  | close
  /-- The stream is discarded. -/
  | discard
  /-- A block writes chunks.  It then ends, or fails before it comes to write anything else. -/
  | block (chunks : List Bytes) (fault : Option Error)
  deriving DecidableEq, Repr

namespace Use

/-- What is done within a block. -/
def body (chunks : List Bytes) (fault : Option Error) : Writing σ Unit := do
  let _ ← writeAll chunks
  .ofExcept (fault.elim (.ok ()) .error)

/-- Does the step. -/
def work (commit : Commit σ) : Use → Writing σ Unit
  | write data => do let _ ← OutputStream.write data
  | close => OutputStream.close commit
  | discard => OutputStream.discard
  | block chunks fault => OutputStream.block commit (body chunks fault)

/-- The step closes an open stream. -/
def closes : Use → Bool
  | write _ => false
  | close | discard | block .. => true

/-- The step closes an open stream and hands its bytes over: a close, or a block that ends without
a failure. -/
def handsOver : Use → Bool
  | write _ | discard => false
  | close => true
  | block _ fault => fault.isNone

/-- What the step writes. -/
def chunks : Use → List Bytes
  | write data => [data]
  | close | discard => []
  | block chunks _ => chunks

/-- The stream and the state after some steps.  A step is done whether the one before failed or
not. -/
def run (commit : Commit σ) (uses : List Use) (x : OutputStream × σ) : OutputStream × σ :=
  uses.foldl (fun x u => ((u.work commit).eval x).2) x

theorem run_cons (commit : Commit σ) (u : Use) (more : List Use) (x : OutputStream × σ) :
    run commit (u :: more) x = run commit more ((u.work commit).eval x).2 := rfl

theorem run_append (commit : Commit σ) (uses more : List Use) (x : OutputStream × σ) :
    run commit (uses ++ more) x = run commit more (run commit uses x) :=
  List.foldl_append

/-! ### On a closed stream -/

theorem eval_body_of_closed (hs : s.closed = true) (chunks : List Bytes) (fault : Option Error)
    (t : σ) : (body chunks fault).eval (s, t) =
      (if chunks = [] then fault.elim (.ok ()) .error else .error (.closedOutput s.path.text),
        (s, t)) := by
  rw [body, Action.eval_bind, eval_writeAll_of_closed hs]
  by_cases hnil : chunks = []
  · rw [if_pos hnil, if_pos hnil]
    rfl
  · rw [if_neg hnil, if_neg hnil]

/-- Nothing is done to a closed stream, nor to the state beside it, but that bytes left over may be
dropped. -/
theorem eval_work_of_closed (hs : s.closed = true) (u : Use) (t : σ) :
    ∃ buffer, ((u.work commit).eval (s, t)).2 = ({ s with buffer }, t) := by
  have hdropped : ({ s with closed := true, buffer := [] } : OutputStream) =
      { s with buffer := [] } := by rw [← hs]
  cases u with
  | write data =>
    refine ⟨s.buffer, ?_⟩
    rw [work, Action.eval_bind, eval_write_of_closed hs]
  | close => exact ⟨s.buffer, by rw [work, eval_close_of_closed hs]⟩
  | discard => exact ⟨[], congrArg (·, t) hdropped⟩
  | block chunks fault =>
    rw [work, eval_block, eval_body_of_closed hs]
    cases if chunks = [] then fault.elim (.ok ()) .error
        else Except.error (.closedOutput s.path.text) with
    | error e => exact ⟨[], congrArg (·, t) hdropped⟩
    | ok u => exact ⟨s.buffer, by dsimp only; rw [eval_close_of_closed hs]⟩

/-! ### On an open stream -/

theorem eval_body (hs : s.closed = false) (chunks : List Bytes) (fault : Option Error) (t : σ) :
    (body chunks fault).eval (s, t) = (fault.elim (.ok ()) .error,
      ({ s with buffer := s.buffer ++ chunks.flatten }, t)) := by
  rw [body, Action.eval_bind, eval_writeAll hs]
  rfl

/-- A step that does not close the stream is a write, and its bytes are taken. -/
theorem eval_work_of_not_closes (hs : s.closed = false) {u : Use} (hu : u.closes = false) (t : σ) :
    (u.work commit).eval (s, t) =
      (.ok (), ({ s with buffer := s.buffer ++ u.chunks.flatten }, t)) := by
  cases u with
  | write data =>
    rw [work, Action.eval_bind, eval_write hs, chunks, List.flatten_singleton]
    rfl
  | close | discard | block => cases hu

theorem eval_close_snd (hs : s.closed = false) (t : σ) :
    ∃ buffer, ((OutputStream.close commit).eval (s, t)).2 =
      ({ s with closed := true, buffer }, ((commit s.buffer).eval t).2) := by
  rw [eval_close hs]
  rcases (commit s.buffer).eval t with ⟨e | u, after⟩
  · exact ⟨s.buffer, rfl⟩
  · exact ⟨[], rfl⟩

/-- A step that closes the stream hands over what is there and what it writes, or nothing. -/
theorem eval_work_of_closes (commit : Commit σ) (hs : s.closed = false) {u : Use}
    (hu : u.closes = true) (t : σ) :
    ∃ buffer, ((u.work commit).eval (s, t)).2 = ({ s with closed := true, buffer },
      if u.handsOver then ((commit (s.buffer ++ u.chunks.flatten)).eval t).2 else t) := by
  cases u with
  | write data => cases hu
  | close =>
    rw [chunks, List.flatten_nil, List.append_nil]
    exact eval_close_snd hs t
  | discard => exact ⟨[], rfl⟩
  | block chunks fault =>
    rw [work, eval_block, eval_body hs]
    cases fault with
    | some e => exact ⟨[], rfl⟩
    | none => exact eval_close_snd (s := { s with buffer := s.buffer ++ chunks.flatten }) hs t

/-! ## What is handed over -/

end Use

/-- Hands bytes over, and keeps a record of them. -/
def Commit.recorded (commit : Commit σ) : Commit (List Bytes × σ) := fun data =>
  .ofFun fun (calls, t) =>
    let (r, t) := (commit data).eval t
    (r, (calls ++ [data], t))

theorem Commit.eval_recorded (commit : Commit σ) (data : Bytes) (calls : List Bytes) (t : σ) :
    (commit.recorded data).eval (calls, t) =
      (((commit data).eval t).1, (calls ++ [data], ((commit data).eval t).2)) := rfl

namespace Use

/-- The record makes no difference to the stream, nor to where its bytes go. -/
theorem eval_work_recorded (commit : Commit σ) (u : Use) (calls : List Bytes) (t : σ) :
    ∃ calls', ((u.work commit.recorded).eval (s, (calls, t))).2 =
      (((u.work commit).eval (s, t)).2.1, (calls', ((u.work commit).eval (s, t)).2.2)) := by
  have hclose : ∀ s : OutputStream, ∃ calls',
      ((OutputStream.close commit.recorded).eval (s, (calls, t))).2 =
        (((OutputStream.close commit).eval (s, t)).2.1,
          (calls', ((OutputStream.close commit).eval (s, t)).2.2)) := by
    intro s
    cases hs : s.closed with
    | true =>
      rw [eval_close_of_closed hs, eval_close_of_closed hs]
      exact ⟨calls, rfl⟩
    | false =>
      rw [eval_close hs, eval_close hs, commit.eval_recorded]
      rcases (commit s.buffer).eval t with ⟨e | u, after⟩ <;> exact ⟨_, rfl⟩
  cases u with
  | write data =>
    refine ⟨calls, ?_⟩
    cases hs : s.closed with
    | true =>
      rw [work, work, Action.eval_bind, Action.eval_bind, eval_write_of_closed hs,
        eval_write_of_closed hs]
    | false =>
      rw [eval_work_of_not_closes hs rfl, eval_work_of_not_closes hs rfl]
  | close => exact hclose s
  | discard => exact ⟨calls, rfl⟩
  | block chunks fault =>
    rw [work, work, eval_block, eval_block]
    cases hs : s.closed with
    | true =>
      rw [eval_body_of_closed hs, eval_body_of_closed hs]
      cases if chunks = [] then fault.elim (.ok ()) .error
          else Except.error (.closedOutput s.path.text) with
      | error e => exact ⟨calls, rfl⟩
      | ok u => exact hclose s
    | false =>
      rw [eval_body hs, eval_body hs]
      cases fault with
      | some e => exact ⟨calls, rfl⟩
      | none => exact hclose _

theorem run_recorded (commit : Commit σ) (uses : List Use) (s : OutputStream)
    (calls : List Bytes) (t : σ) :
    ∃ calls', run commit.recorded uses (s, (calls, t)) =
      ((run commit uses (s, t)).1, (calls', (run commit uses (s, t)).2)) := by
  induction uses generalizing s calls t with
  | nil => exact ⟨calls, rfl⟩
  | cons u more ih =>
    obtain ⟨calls', hwork⟩ := eval_work_recorded (s := s) commit u calls t
    rw [run_cons, run_cons, hwork]
    exact ih ..

/-! ## One step after the other -/

theorem run_of_closed (commit : Commit σ) (hs : s.closed = true) (uses : List Use) (t : σ) :
    ∃ buffer, run commit uses (s, t) = ({ s with buffer }, t) := by
  induction uses generalizing s with
  | nil => exact ⟨s.buffer, rfl⟩
  | cons u more ih =>
    obtain ⟨buffer, hwork⟩ := eval_work_of_closed hs u t
    rw [run_cons, hwork]
    exact ih (s := { s with buffer }) hs

/-- As long as no step closes the stream, all bytes are kept and nothing else happens. -/
theorem run_of_not_closes (hs : s.closed = false) {uses : List Use}
    (huses : uses.any closes = false) (t : σ) : run commit uses (s, t) =
      ({ s with buffer := s.buffer ++ (uses.flatMap chunks).flatten }, t) := by
  induction uses generalizing s with
  | nil =>
    rw [List.flatMap_nil, List.flatten_nil, List.append_nil]
    rfl
  | cons u more ih =>
    rw [List.any_cons, Bool.or_eq_false_iff] at huses
    rw [run_cons, eval_work_of_not_closes hs huses.1,
      ih (s := { s with buffer := s.buffer ++ u.chunks.flatten }) hs huses.2, List.flatMap_cons,
      List.flatten_append, List.append_assoc]

/-- The first step that closes the stream hands over all that was written up to its end, or
nothing.  Later steps do nothing. -/
theorem run_of_closes (hs : s.closed = false) {before : List Use}
    (hbefore : before.any closes = false) {u : Use} (hu : u.closes = true) (after : List Use)
    (t : σ) : ∃ buffer, run commit (before ++ u :: after) (s, t) =
      ({ s with closed := true, buffer },
        if u.handsOver then
          ((commit (s.buffer ++ ((before ++ [u]).flatMap chunks).flatten)).eval t).2
        else t) := by
  obtain ⟨kept, hwork⟩ := eval_work_of_closes commit
    (s := { s with buffer := s.buffer ++ (before.flatMap chunks).flatten }) hs hu t
  rw [run_append, run_of_not_closes hs hbefore, run_cons, hwork, List.flatMap_append,
    List.flatMap_singleton, List.flatten_append, ← List.append_assoc]
  exact run_of_closed commit rfl after _

theorem any_closes_cases (uses : List Use) : uses.any closes = false ∨
    ∃ before u after, uses = before ++ u :: after ∧ before.any closes = false ∧
      u.closes = true := by
  cases hfind : uses.find? closes with
  | none =>
    refine .inl (List.any_eq_false.mpr fun u hu => ?_)
    exact List.find?_eq_none.mp hfind u hu
  | some u =>
    obtain ⟨hu, before, after, huses, hbefore⟩ := List.find?_eq_some_iff_append.mp hfind
    refine .inr ⟨before, u, after, huses, List.any_eq_false.mpr fun v hv => ?_, hu⟩
    simpa using hbefore v hv

/-- Bytes are handed over at most once, by the first step that closes the stream: none if that is a
discard or a block that fails, and otherwise all that were written up to its end, in order.  From
then on the stream is closed, whatever came of handing over: writing fails and nothing is handed
over again. -/
theorem handed_over_once (commit : Commit σ) (path : Path) (uses : List Use) (t : σ) :
    let x := run commit.recorded uses ({ path }, ([], t))
    (x.1, x.2.2) = run commit uses ({ path }, t) ∧
      x.2.1.length ≤ 1 ∧
      (uses.any closes = false → x.1.closed = false ∧ x.2.1 = [] ∧
        ∀ data, ((OutputStream.write data).eval x).1 = .ok data.length) ∧
      (∀ before u after, uses = before ++ u :: after → before.any closes = false →
        u.closes = true → x.1.closed = true ∧
          x.2.1 = if u.handsOver then [((before ++ [u]).flatMap chunks).flatten] else []) ∧
      (x.1.closed = true →
        (∀ data, ((OutputStream.write data).eval x).1 = .error (.closedOutput path.text)) ∧
        ∀ more, (run commit.recorded (uses ++ more) ({ path }, ([], t))).1.closed = true ∧
          (run commit.recorded (uses ++ more) ({ path }, ([], t))).2 = x.2) := by
  intro x
  -- without a step that closes the stream
  have hopen : uses.any closes = false → x = ({ path, buffer := (uses.flatMap chunks).flatten },
      ([], t)) := fun huses =>
    run_of_not_closes (s := { path }) rfl huses ([], t)
  -- with a first step that does
  have hclosed : ∀ before u after, uses = before ++ u :: after → before.any closes = false →
      u.closes = true → ∃ buffer, x = ({ path, closed := true, buffer },
        if u.handsOver then
          ([((before ++ [u]).flatMap chunks).flatten],
            ((commit ((before ++ [u]).flatMap chunks).flatten).eval t).2)
        else ([], t)) := by
    rintro before u after rfl hbefore hu
    exact run_of_closes (s := { path }) rfl hbefore hu after ([], t)
  have hends : x.2.1.length ≤ 1 ∧ x.1.path = path := by
    rcases any_closes_cases uses with huses | ⟨before, u, after, huses, hbefore, hu⟩
    · rw [hopen huses]
      exact ⟨Nat.zero_le 1, rfl⟩
    · obtain ⟨buffer, hx⟩ := hclosed before u after huses hbefore hu
      rw [hx]
      cases u.handsOver with
      | true => exact ⟨Nat.le_refl 1, rfl⟩
      | false => exact ⟨Nat.zero_le 1, rfl⟩
  refine ⟨?_, hends.1, ?_, ?_, ?_⟩
  · obtain ⟨calls, hrun⟩ := run_recorded commit uses { path } [] t
    rw [show x = _ from hrun]
  · intro huses
    rw [hopen huses]
    exact ⟨rfl, rfl, fun data => rfl⟩
  · intro before u after huses hbefore hu
    obtain ⟨buffer, hx⟩ := hclosed before u after huses hbefore hu
    rw [hx]
    cases u.handsOver with
    | true => exact ⟨rfl, rfl⟩
    | false => exact ⟨rfl, rfl⟩
  · intro hdone
    refine ⟨fun data => ?_, fun more => ?_⟩
    · rw [← hends.2]
      exact congrArg Prod.fst (eval_write_of_closed hdone data x.2)
    · obtain ⟨buffer, hrun⟩ := run_of_closed commit.recorded hdone more x.2
      rw [run_append, show run commit.recorded more _ = _ from hrun]
      exact ⟨hdone, rfl⟩

end Use

end OutputStream

end MountSpace
