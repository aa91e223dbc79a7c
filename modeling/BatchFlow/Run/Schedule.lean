import BatchFlow.Run.Record
import BatchFlow.Run.State

namespace BatchFlow

/-!
# Scheduling

* `RunState.fill` — takes ready steps, first come first served, for as long as there is room and
  nothing has failed.
* `RunState.drive` — fills the room, lets one task finish, and so on until none is under way. Which
  of the tasks finishes is the choice of a `CompletionOrder`.
* `Engine.run` — a run from the supplied values to the records.
-/

/-- Which of the tasks under way finishes next: a position, by the number of rounds that are left.
    Positions count around. -/
abbrev CompletionOrder := Nat → Nat

/-- The task that was started first finishes first. -/
def oldestFirst : CompletionOrder := fun _ => 0

namespace RunState

/-- Takes ready steps while there is room, at most one a turn. -/
def fill (context : RunContext) (limit : Nat) : (turns : Nat) → RunState → RunState
  | 0, s => s
  | turns + 1, s =>
    -- a step that is passed over takes no room, so the next one is looked at
    if s.failure.isSome || limit ≤ s.inFlight.length then s
    else match s.ready with
      | [] => s
      | step :: ready => fill context limit turns (RunState.take context { s with ready } step)

/-- A step can be taken once, so there are never more turns than steps that have not been taken. -/
def fillAll (context : RunContext) (limit : Nat) (s : RunState) : RunState :=
  s.fill context limit (s.waiting.length + s.ready.length)

/-- Lets the task at a position finish, if there is one. -/
def finishAt (context : RunContext) (s : RunState) (position : Nat) : RunState :=
  match s.inFlight[position]? with
  | some task => finish context { s with inFlight := s.inFlight.eraseIdx position } task
  | none => s

/-- Fills the room and lets a task finish, round by round, until none is under way. -/
def drive (context : RunContext) (limit : Nat) (order : CompletionOrder) :
    (rounds : Nat) → RunState → RunState
  | 0, s => s
  | rounds + 1, s =>
    let s := s.fillAll context limit
    if s.inFlight.isEmpty then s
    else
      drive context limit order rounds (finishAt context s (order rounds % s.inFlight.length))

end RunState

/-- What is left open by an engine and its inputs. -/
structure RunOptions where
  order : CompletionOrder := oldestFirst
  draw : String → Float := fun _ => 0.5
  /-- Whether the run is called off before it starts. -/
  cancelled : Bool := false

/-- The records of a run, or why there are none, and what was reported. -/
structure Report where
  result : Except RunFault (List Record)
  events : List Event := []

namespace Engine

/-- The state in which a run ends: one round per step, and one that finds nothing to do. -/
def finalState (engine : Engine) (options : RunOptions) (prepared : Prepared) : RunState :=
  RunState.drive ⟨engine, prepared.store, options.draw⟩ engine.settings.limit options.order
    (engine.plan.steps.length + 1) (.initial engine.plan prepared.shape)

/-- The result of a run that ended in some state. -/
def resultOf (engine : Engine) (prepared : Prepared) (s : RunState) :
    Except RunFault (List Record) :=
  match s.failure with
  | some fault => .error fault
  | none => .ok (assemble engine.plan.outputs prepared.batchSize prepared.store s.results s.shape)

/-- Runs the plan of an engine on supplied values. -/
def run (engine : Engine) (parameters : Table String Json) (options : RunOptions := {}) : Report :=
  match prepare engine.plan.inputs parameters with
  | .error fault => { result := .error fault }
  | .ok prepared =>
    if options.cancelled then { result := .error .cancelled }
    else
      let s := engine.finalState options prepared
      { result := engine.resultOf prepared s, events := s.events }

end Engine

end BatchFlow
