import Coroutine.BuildError
import Coroutine.Text.Quoted

/-!
# Await binders

A binder says how values of an awaitable type are awaited. Trees name awaitable types by strings; a
`Registry` resolves the names, first among the registered binders, then by its factories in the
order of their addition.

Binders are objects: `Registry.resolve` keeps what it has resolved, so that a name resolves to the
same object until another binder is registered for it. `Registry.find?` is what resolving amounts to
without the objects.
-/

namespace Coroutine

/-- How an awaitable is awaited. -/
inductive Protocol where
  /-- The awaitable is a task and is its own awaiter. -/
  | task
  /-- Any value, which is complete at once. -/
  | immediate
  /-- A protocol of the host, known to it by a key. -/
  | foreign (key : String)
deriving DecidableEq, Repr

/-- A binder for an awaitable type. -/
structure Binder where
  typeName : String
  protocol : Protocol
deriving DecidableEq, Repr

namespace Binder

/-- A binder that awaits tasks under some name. -/
def task (typeName : String) : Binder := ⟨typeName, .task⟩

/-- The binder for values that are complete at once. -/
def immediate : Binder := ⟨"Value", .immediate⟩

end Binder

/-- A binder object. -/
structure BinderObject where
  binder : Binder
  id : Nat
deriving DecidableEq, Repr

/-- Makes binders for the type names that it accepts. -/
abbrev Factory := String → Option Binder

/-- Resolves awaitable types by name. -/
structure Registry where
  registered : List (String × BinderObject) := []
  factories : List Factory := []
  cache : List (String × BinderObject) := []
  /-- A number that no binder object has had so far. -/
  made : Nat := 0

namespace Registry

/-- No binders at all. -/
def empty : Registry := {}

/-- Registers a binder object under its type name, in place of the one before. -/
def enter (r : Registry) (o : BinderObject) : Registry :=
  let drop (l : List (String × BinderObject)) := l.filter (·.1 != o.binder.typeName)
  { r with
    registered := (o.binder.typeName, o) :: drop r.registered
    cache := drop r.cache
    made := max r.made (o.id + 1) }

/-- Registers a new binder object. -/
def register (r : Registry) (b : Binder) : Registry := r.enter ⟨b, r.made⟩

/-- Adds a factory, to be asked after all others. -/
def addFactory (r : Registry) (f : Factory) : Registry :=
  { r with factories := r.factories ++ [f] }

/-- Serves the names of generic tasks. -/
def genericTasks : Factory := fun name =>
  if name.startsWith "Task<" && name.endsWith ">" then some (.task name) else none

/-- Tasks, plain values, and generic tasks. -/
def builtin : Registry :=
  ((empty.register (.task "Task")).register .immediate).addFactory genericTasks

/-- The binder a name resolves to. -/
def find? (r : Registry) (name : String) : Option Binder :=
  match r.registered.lookup name with
  | some b => some b.binder
  | none => r.factories.findSome? (· name)

/-- The binder a name resolves to, or the error that there is none. -/
def binder (r : Registry) (name : String) : Except BuildError Binder :=
  match r.find? name with
  | some b => .ok b
  | none => .error (.notAwaitable name)

/-- The binder object a name resolves to, which is kept for the next time. -/
def resolve (r : Registry) (name : String) : Except BuildError BinderObject × Registry :=
  match r.cache.lookup name with
  | some b => (.ok b, r)
  | none =>
    match r.registered.lookup name with
    | some b => (.ok b, { r with cache := (name, b) :: r.cache })
    | none =>
      match r.factories.findSome? (· name) with
      | some b =>
        let object : BinderObject := ⟨b, r.made⟩
        (.ok object, { r with cache := (name, object) :: r.cache, made := r.made + 1 })
      | none => (.error (.notAwaitable name), r)

/-- The number of resolutions kept. -/
def cached (r : Registry) : Nat := r.cache.length

/-- A summary of the registry, the registered names in order. -/
def text (r : Registry) : String :=
  let names := (r.registered.map Prod.fst).mergeSort fun a b => !(b < a)
  "BinderRegistry \x7b registered: " ++ quotedList names ++ ", factories: "
    ++ toString r.factories.length ++ ", cached: " ++ toString r.cached ++ " \x7d"

end Registry

end Coroutine
