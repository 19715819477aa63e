import Coroutine.Host.Env

/-!
# The host of the command line

The functions that a lambda can call when it runs from the command line. What it prints is kept in
the order of writing.
-/

namespace Coroutine.Cli

/-- What has been written so far, the last piece first. -/
structure Console where
  pieces : List String := []

namespace Console

/-- Writes a line. -/
def writeLine (c : Console) (line : String) : Console := ⟨"\n" :: line :: c.pieces⟩

/-- All that was written. -/
def text (c : Console) : String := String.join c.pieces.reverse

/-- The first argument of a call, or unit. -/
def first (args : List Value) : Value := args.headD .unit

/-- A task that is completed with a value. -/
def ready : HostFunction Console := fun args =>
  .task <$> Effect.act fun w => w.newTask (some (.ok (first args)))

/-- A task that completes with a value after a while. -/
def delay : HostFunction Console := fun args =>
  .task <$> Effect.act fun w => w.delayed (.ok (first args))

/-- A task that has failed with a message. -/
def fail : HostFunction Console := fun args =>
  .task <$> Effect.act fun w =>
    let (e, w) := w.raise ⟨"HostError", (first args).text⟩
    w.newTask (some (.error e))

/-- Writes the arguments on a line. -/
def print : HostFunction Console := fun args =>
  Effect.act fun w =>
    let line := " ".intercalate (args.map Value.text)
    (.unit, { w with host := w.host.writeLine line })

/-- The host: its functions, and no await protocols of its own. -/
def env : Env Console where
  functions := ⟨[("ready", ready), ("delay", delay), ("fail", fail), ("print", print)]⟩
  protocols _ := immediateProtocol Console
  notify _ _ c := c

end Console

end Coroutine.Cli
