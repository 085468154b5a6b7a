import RuleLang.Proofs.Visitor.Walk

/-!
# The calls of a walk

A walk is described by the calls that it makes. They are given by recursion on the tree: the call
that enters a node, the calls of its children one after another unless this call passes over them,
and the call that leaves it. Each call gets the state that the one before it gave. This recursion
knows nothing of stopping; a walk makes its calls up to the first one that stops.

## Main definitions

* `Call` — a call of a visitor, with its place and what it gave.
* `Visitor.callsFrom` — the calls of an element, without regard to stops.
* `Call.upToStop` — calls up to the first one that stops.
* `Visitor.logged` — the visitor that also keeps a log of its calls.

## Main statements

* `SyntaxTree.walk_eq_through` — what a walk gives is what its calls give together.
* `SyntaxTree.log_walk` — the calls that a walk makes.
-/

namespace RuleLang

open Stamped

variable {σ : Type}

/-- A call of a visitor. The number is that of the place in preorder. -/
structure Call (σ : Type) where
  point : HookPoint
  number : Nat
  place : Place
  reaction : Reaction σ

namespace Call

def stops (c : Call σ) : Bool :=
  c.reaction.action == .stop

/-- The call passes over the children of its node. -/
def skips (c : Call σ) : Bool :=
  c.point == .enter && c.reaction.action == .skipChildren

/-- The calls up to the first one that stops, which is the last one. -/
def upToStop : List (Call σ) → List (Call σ)
  | [] => []
  | c :: cs => if c.stops then [c] else c :: upToStop cs

/-- The state that the last call gives. -/
def stateAfter (s : σ) (calls : List (Call σ)) : σ :=
  calls.foldl (fun _ c => c.reaction.state) s

@[simp] theorem stateAfter_nil (s : σ) : stateAfter s [] = s := rfl

@[simp] theorem stateAfter_cons (s : σ) (c : Call σ) (cs : List (Call σ)) :
    stateAfter s (c :: cs) = stateAfter c.reaction.state cs := rfl

@[simp] theorem stateAfter_append (s : σ) (a b : List (Call σ)) :
    stateAfter s (a ++ b) = stateAfter (stateAfter s a) b :=
  List.foldl_append

theorem upToStop_of_running {calls : List (Call σ)} (h : calls.any stops = false) :
    upToStop calls = calls := by
  induction calls with
  | nil => rfl
  | cons c cs ih =>
    simp only [List.any_cons, Bool.or_eq_false_iff] at h
    simp [upToStop, h.1, ih h.2]

@[simp] theorem any_stops_upToStop (calls : List (Call σ)) :
    (upToStop calls).any stops = calls.any stops := by
  induction calls with
  | nil => rfl
  | cons c cs ih => by_cases h : c.stops = true <;> simp [upToStop, h, ih]

end Call

namespace Visitor

variable (v : Visitor σ) (i : TreeIndex)

/-- The call of a visitor for a point of the walk. What leaving a node asks for has no effect on the
walk. -/
def call : HookPoint → Visit → σ → Reaction σ
  | .enter, visit, s => v.enter visit s
  | .leave, visit, s => { v.leave visit s with action := .descend }
  | .token, visit, s => v.token visit s

mutual

/-- The calls of an element, without regard to stops. -/
def callsFrom (number offset : Nat) (above : List Nat) : Stamped → σ → List (Call σ)
  | .token s k t, state =>
    let place : Place := ⟨offset, .token s k t, above⟩
    [⟨.token, number, place, v.call .token ⟨i, place⟩ state⟩]
  | .node s k cs, state =>
    let place : Place := ⟨offset, .node s k cs, above⟩
    let entered := v.call .enter ⟨i, place⟩ state
    let inner :=
      if entered.action = .skipChildren then []
      else callsOfAll (number + 1) offset (number :: above) cs entered.state
    let left := v.call .leave ⟨i, place⟩ (Call.stateAfter entered.state inner)
    ⟨.enter, number, place, entered⟩ :: (inner ++ [⟨.leave, number, place, left⟩])

/-- The calls of elements that stand one after another. -/
def callsOfAll (number offset : Nat) (above : List Nat) : List Stamped → σ → List (Call σ)
  | [], _ => []
  | e :: es, state =>
    let calls := callsFrom number offset above e state
    calls ++
      callsOfAll (number + e.size) (offset + e.width) above es (Call.stateAfter state calls)

end

end Visitor

/-! ## Walking through calls -/

namespace Walk

/-- Goes through calls, up to a stop. -/
def through (w : Walk σ) : List (Call σ) → Walk σ
  | [] => w
  | c :: cs => if c.stops then w.after c.reaction else (w.after c.reaction).through cs

theorem through_append {w : Walk σ} (hw : w.stopped = false) (a b : List (Call σ)) :
    w.through (a ++ b) =
      if (w.through a).stopped then w.through a else (w.through a).through b := by
  induction a generalizing w with
  | nil => simp [through, hw]
  | cons c a ih =>
    by_cases h : c.stops = true
    · have stopped : (w.after c.reaction).stopped = true := h
      simp [through, h, stopped]
    · simpa [through, h] using ih (Bool.eq_false_iff.mpr h)

theorem state_through {w : Walk σ} {calls : List (Call σ)} (h : (w.through calls).stopped = false) :
    (w.through calls).state = Call.stateAfter w.state calls := by
  induction calls generalizing w with
  | nil => rfl
  | cons c calls ih =>
    by_cases hc : c.stops = true
    · simp only [through, hc, if_true] at h
      exact absurd (hc.symm.trans h) Bool.noConfusion
    · simp only [through, hc, if_false, Bool.false_eq_true] at h ⊢
      exact ih h

/-- What calls give together. -/
theorem through_eq {w : Walk σ} (hw : w.stopped = false) (calls : List (Call σ)) :
    w.through calls =
      ⟨Call.stateAfter w.state (Call.upToStop calls),
        w.edits ++ (Call.upToStop calls).flatMap (·.reaction.edits),
        (Call.upToStop calls).any Call.stops⟩ := by
  induction calls generalizing w with
  | nil =>
    obtain ⟨s, edits, stopped⟩ := w
    subst hw
    simp [through, Call.upToStop]
  | cons c calls ih =>
    by_cases h : c.stops = true
    · simp only [through, Call.upToStop, h, if_true]
      simp [after, h, show (c.reaction.action == .stop) = true from h]
    · rw [through, if_neg h, ih (Bool.eq_false_iff.mpr h), Call.upToStop, if_neg h]
      simp [after, h]

end Walk

namespace Visitor

variable (v : Visitor σ) (i : TreeIndex)

theorem leaving_eq_after (p : Place) (w : Walk σ) :
    v.leaving i p w = w.after (v.call .leave ⟨i, p⟩ w.state) := rfl

mutual

/-- A walk by recursion goes through the calls. -/
theorem walkFrom_eq_through (number offset : Nat) (above : List Nat) :
    (e : Stamped) → (w : Walk σ) →
      v.walkFrom i number offset above e w =
        w.through (v.callsFrom i number offset above e w.state)
  | .token s k t, w => by simp [walkFrom, callsFrom, Walk.through, call]
  | .node s k cs, w => by
    rw [walkFrom, callsFrom]
    dsimp only
    -- entering decides whether the children are walked
    have entered : v.enter ⟨i, ⟨offset, .node s k cs, above⟩⟩ w.state =
      v.call .enter ⟨i, ⟨offset, .node s k cs, above⟩⟩ w.state := rfl
    rw [entered]
    generalize v.call .enter ⟨i, ⟨offset, .node s k cs, above⟩⟩ w.state = r
    cases hr : r.action with
    | stop => simp [Walk.through, Call.stops, hr]
    | skipChildren => simp [Walk.through, Call.stops, hr, leaving_eq_after, Walk.after]
    | descend =>
      have running : (w.after r).stopped = false := by simp [Walk.after, hr]
      have inner := walkAll_eq_through (number + 1) offset (number :: above) cs _ running
      have state : (w.after r).state = r.state := rfl
      rw [state] at inner
      simp only [reduceCtorEq, if_false, Walk.through, Call.stops, hr, inner, beq_iff_eq,
        Walk.through_append running, ite_self]
      split
      · rfl
      · next goesOn =>
        rw [leaving_eq_after, Walk.state_through (Bool.eq_false_iff.mpr goesOn), state]

theorem walkAll_eq_through (number offset : Nat) (above : List Nat) :
    (es : List Stamped) → (w : Walk σ) → w.stopped = false →
      v.walkAll i number offset above es w =
        w.through (v.callsOfAll i number offset above es w.state)
  | [], w, _ => rfl
  | e :: es, w, running => by
    rw [walkAll, callsOfAll, Walk.through_append running,
      walkFrom_eq_through number offset above e w]
    split
    · rfl
    · next goesOn =>
      have goesOn := Bool.eq_false_iff.mpr goesOn
      rw [walkAll_eq_through _ _ above es _ goesOn, Walk.state_through goesOn]

end

end Visitor

/-- What a walk gives is what the calls up to the first stop give together. -/
theorem SyntaxTree.walk_eq_through (t : SyntaxTree) (v : Visitor σ) (s : σ) :
    let made := Call.upToStop (v.callsFrom t.index 0 0 [] t.root s)
    t.walk v s =
      ⟨Call.stateAfter s made, made.flatMap (·.reaction.edits), made.any Call.stops⟩ := by
  rw [t.walk_eq, v.walkFrom_eq_through, Walk.through_eq rfl]
  rfl

/-! ## The log of a walk -/

/-- Calls as the visitor sees them. -/
abbrev CallLog (σ : Type) : Type :=
  List (HookPoint × Place × Reaction σ)

namespace Call

def entry (c : Call σ) : HookPoint × Place × Reaction σ :=
  (c.point, c.place, c.reaction)

/-- The same call of the visitor that keeps a log. -/
def withLog (log : CallLog σ) (c : Call σ) : Call (σ × CallLog σ) :=
  { c with reaction := { c.reaction with state := (c.reaction.state, log ++ [c.entry]) } }

/-- The same calls of the visitor that keeps a log. -/
def allWithLog : CallLog σ → List (Call σ) → List (Call (σ × CallLog σ))
  | _, [] => []
  | log, c :: cs => c.withLog log :: allWithLog (log ++ [c.entry]) cs

theorem allWithLog_append (log : CallLog σ) (a b : List (Call σ)) :
    allWithLog log (a ++ b) = allWithLog log a ++ allWithLog (log ++ a.map entry) b := by
  induction a generalizing log with
  | nil => simp [allWithLog]
  | cons c a ih => simp [allWithLog, ih]

theorem stateAfter_allWithLog (s : σ) (log : CallLog σ) (a : List (Call σ)) :
    stateAfter (s, log) (allWithLog log a) = (stateAfter s a, log ++ a.map entry) := by
  induction a generalizing s log with
  | nil => simp [allWithLog]
  | cons c a ih => simp [allWithLog, withLog, ih]

theorem upToStop_allWithLog (log : CallLog σ) (a : List (Call σ)) :
    upToStop (allWithLog log a) = allWithLog log (upToStop a) := by
  induction a generalizing log with
  | nil => rfl
  | cons c a ih =>
    have same : (c.withLog log).stops = c.stops := rfl
    by_cases h : c.stops = true <;> simp [allWithLog, upToStop, same, h, ih]

end Call

namespace Visitor

variable (v : Visitor σ) (i : TreeIndex)

/-- The visitor that also keeps a log of its calls. -/
def logged : Visitor (σ × CallLog σ) where
  enter := log .enter
  leave := log .leave
  token := log .token
where
  log (point : HookPoint) (visit : Visit) (s : σ × CallLog σ) : Reaction (σ × CallLog σ) :=
    let r := v.call point visit s.1
    { r with state := (r.state, s.2 ++ [(point, visit.place, r)]) }

@[simp] theorem call_logged (point : HookPoint) (visit : Visit) (s : σ × CallLog σ) :
    v.logged.call point visit s = logged.log v point visit s := by
  cases point <;> rfl

mutual

theorem callsFrom_logged (number offset : Nat) (above : List Nat) :
    (e : Stamped) → (s : σ) → (log : CallLog σ) →
      v.logged.callsFrom i number offset above e (s, log) =
        Call.allWithLog log (v.callsFrom i number offset above e s)
  | .token _ _ _, s, log => by
    simp [callsFrom, Call.allWithLog, Call.withLog, Call.entry, logged.log]
  | .node n k cs, s, log => by
    simp only [callsFrom, call_logged, logged.log, Call.allWithLog, Call.withLog, Call.entry]
    split
    · simp [Call.allWithLog, Call.withLog, Call.entry]
    · rw [callsOfAll_logged _ _ _ cs, Call.stateAfter_allWithLog, Call.allWithLog_append]
      rfl

theorem callsOfAll_logged (number offset : Nat) (above : List Nat) :
    (es : List Stamped) → (s : σ) → (log : CallLog σ) →
      v.logged.callsOfAll i number offset above es (s, log) =
        Call.allWithLog log (v.callsOfAll i number offset above es s)
  | [], _, _ => rfl
  | e :: es, s, log => by
    simp only [callsOfAll]
    rw [callsFrom_logged number offset above e, Call.stateAfter_allWithLog,
      callsOfAll_logged _ _ above es, Call.allWithLog_append]

end

end Visitor

/-- The calls that a walk makes are those of the recursion, up to the first one that stops. -/
theorem SyntaxTree.log_walk (t : SyntaxTree) (v : Visitor σ) (s : σ) :
    (t.walk v.logged (s, [])).state.2 =
      (Call.upToStop (v.callsFrom t.index 0 0 [] t.root s)).map Call.entry := by
  rw [t.walk_eq_through, v.callsFrom_logged, Call.upToStop_allWithLog, Call.stateAfter_allWithLog,
    List.nil_append]

end RuleLang
