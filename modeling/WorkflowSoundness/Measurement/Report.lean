import WorkflowSoundness.Fault

/-!
What a run tells about itself, in order: metric values, log messages, and where measured
sections begin and end. A `Report` pairs these events with the outcome of the run. A run
that fails keeps the events that came before; a defect still ends the sections around it,
a misuse leaves them open.
-/

namespace WorkflowSoundness

inductive Level where
  | info
  | debug
  | trace
  deriving DecidableEq, Repr

def Level.text : Level → String
  | .info => "INFO"
  | .debug => "DEBUG"
  | .trace => "TRACE"

/-- A part of a run whose time is taken. -/
inductive Section where
  /-- Its time is a metric of its own. -/
  | timed (name : String)
  /-- A whole plan; its time is the plan's metric. -/
  | plan (name : String)
  /-- Its time is left out of the section of this name. -/
  | ignored (name : String)
  deriving DecidableEq, Repr

/-- One thing that a run tells about itself. -/
inductive Event where
  | put (key : String) (value : Nat)
  | add (key : String) (delta : Nat)
  | log (level : Level) (message : String)
  | begins (part : Section)
  | ends
  deriving DecidableEq, Repr

/-- The events of a run and its outcome. -/
structure Report (α : Type) where
  events : List Event
  outcome : Except Fault α

namespace Report

variable {α β : Type}

protected def pure (value : α) : Report α :=
  ⟨[], .ok value⟩

protected def bind (first : Report α) (next : α → Report β) : Report β :=
  match first.outcome with
  | .error fault => ⟨first.events, .error fault⟩
  | .ok value => ⟨first.events ++ (next value).events, (next value).outcome⟩

instance : Monad Report where
  pure := Report.pure
  bind := Report.bind

instance : LawfulMonad Report := LawfulMonad.mk' Report
  (fun first => by
    obtain ⟨events, outcome⟩ := first
    cases outcome <;> simp [Functor.map, Report.bind, Report.pure])
  (fun value next => by simp [pure, bind, Report.bind, Report.pure])
  (fun first next last => by
    simp only [bind, Report.bind]
    cases first.outcome with
    | error fault => rfl
    | ok value =>
      dsimp only
      cases (next value).outcome with
      | error fault => rfl
      | ok second => simp)

def tell (event : Event) : Report Unit :=
  ⟨[event], .ok ()⟩

def put (key : String) (value : Nat) : Report Unit :=
  tell (.put key value)

def add (key : String) (delta : Nat) : Report Unit :=
  tell (.add key delta)

def log (level : Level) (message : String) : Report Unit :=
  tell (.log level message)

def fail (fault : Fault) : Report α :=
  ⟨[], .error fault⟩

def ofDefect : Except Defect α → Report α
  | .ok value => .pure value
  | .error cause => fail (.defect cause)

def ofMisuse : Except Misuse α → Report α
  | .ok value => .pure value
  | .error cause => fail (.misuse cause)

/-- Runs a report as a measured section. -/
def within (part : Section) (body : Report α) : Report α :=
  match body.outcome with
  | .error (.misuse _) => ⟨.begins part :: body.events, body.outcome⟩
  | _ => ⟨.begins part :: body.events ++ [.ends], body.outcome⟩

def timed (name : String) (body : Report α) : Report α :=
  body.within (.timed name)

def ignored (name : String) (body : Report α) : Report α :=
  body.within (.ignored name)

end Report
end WorkflowSoundness
