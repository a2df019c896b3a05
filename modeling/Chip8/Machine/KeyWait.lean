import Chip8.Machine.Basic

/-!
# Waiting for a key

A wait looks for a key and, as long as there is none, sleeps until something happens at the surface.
What happens while it sleeps is given by a script, one batch of events for each sleep; once the
script is at its end the surface is closed.  The wait ends with a key or with the closing of the
surface, so it always ends.
-/

namespace Chip8

/-- How a wait ends. -/
inductive WaitEnd where
  /-- A key was found. -/
  | key (code : Int)
  /-- The surface was closed. -/
  | closed
  /-- Something happened that cannot happen. -/
  | fault (f : Fault)
deriving DecidableEq, Repr

/-- A wait that has ended. -/
structure KeyWait where
  /-- The surface at the end. -/
  surface : Surface
  /-- What is left of the script. -/
  script : List (List KeyEvent)
  /-- What happened while the wait slept, in order. -/
  seen : List KeyEvent
  /-- How the wait ended. -/
  ending : WaitEnd
deriving DecidableEq, Repr

namespace Surface

/-- Something happens at the surface. -/
def happen (s : Surface) : KeyEvent → Except Fault Surface
  | .press code => s.press code
  | .release code => .ok (s.release code)
  | .close => .ok s.close

/-- Things happen in order, up to the first that cannot. -/
def happenAll (s : Surface) : List KeyEvent → Surface × List KeyEvent × Option Fault
  | [] => (s, [], none)
  | e :: es =>
    match s.happen e with
    | .ok next =>
      let (last, seen, fault) := next.happenAll es
      (last, e :: seen, fault)
    | .error f => (s, [], some f)

/-- Looks for a key, where a stray number stands in for every key. -/
def look (s : Surface) (stray : Option Int) : Option Int × Surface :=
  match stray with
  | some code => (some code, s)
  | none =>
    let (key, next) := s.poll
    (key.map fun k => (k.val : Int), next)

/-- Waits for a key. -/
def awaitKey (stray : Option Int) : List (List KeyEvent) → Surface → KeyWait
  | script, s =>
    if s.isOpen then
      match s.look stray with
      | (some code, s) => ⟨s, script, [], .key code⟩
      | (none, s) =>
        match script with
        | [] => ⟨s.close.wait.2, [], [.close], .closed⟩
        | batch :: later =>
          match s.happenAll batch with
          | (s, seen, some f) => ⟨s, later, seen, .fault f⟩
          | (s, seen, none) =>
            -- The signal is lowered on waking, whether or not something raised it.
            let rest := awaitKey stray later s.wait.2
            { rest with seen := seen ++ rest.seen }
    else ⟨s, script, [], .closed⟩

end Surface

/-- Carries out a request at the surface of the machine, where a key that is looked for may be the
stray one. -/
def Machine.ask (m : Machine) (request : Surface.Request) :
    Except Fault (Surface.Reply × Machine) := do
  match request, m.stray with
  | .poll, some code => return (.key (some code), m)
  | request, _ =>
    let (reply, surface) ← m.surface.perform request
    return (reply, { m with surface })

end Chip8
