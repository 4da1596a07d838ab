import WasmMachine.Frame
import WasmMachine.Instance
import WasmMachine.Memory
import WasmMachine.Table

/-!
# Host functions

A host function is a program over the operations that the machine offers to whoever embeds it.
It is data: a tree whose nodes ask for one operation and go on with the reply.  So a host
function can do exactly what the machine lets it do, and a statement about every host function
is an induction on its tree.

Operations come in two families.  An `Access` looks something up in the machine, or changes one
thing in it; it always comes to an end.  An `Entry` runs guest code, which may call host
functions in turn.  Besides, a host function can register further host functions and can read
and set the state `σ` of the embedder, which the machine keeps but never looks at.

There is no access for the configuration of the machine: it never changes, so that a program may
have it from whoever writes the program.
-/

namespace WasmMachine

/-! ## Operations -/

/-- How a call from outside ended. -/
inductive Outcome where
  | returned (values : Array Value)
  | exited (code : Int32)
  deriving DecidableEq, Repr, Inhabited

/-- How a call through a trampoline ended. -/
inductive Trampolined where
  | returned (values : Array Value)
  /-- A jump out of the callee was caught. -/
  | unwound
  deriving DecidableEq, Repr, Inhabited

/-- What can be seen of a function of the store. -/
structure FuncView where
  type : FuncType
  /-- The instance of a function that a module defines. -/
  inst? : Option Nat
  /-- The two names of a host function. -/
  names? : Option (String × String)
  deriving DecidableEq, Repr, Inhabited

/-- Operations that do not run code. -/
inductive Access where
  | frames
  | fuel
  | setFuel (fuel : Option UInt64)
  | funcAt (addr : Nat)
  | funcType (addr : Nat)
  | getFunc (module name : String)
  | instanceByName (name : String)
  | instanceAt (idx : Nat)
  | exported (inst : Nat) (name : String)
  | resolveHostFunc (module name : String) (expected : FuncType)
  | resolveExterns (module : Module)
  | global (addr : Nat)
  | setGlobal (addr : Nat) (value : Value)
  /-- Read from the first memory of the store. -/
  | readBytes (pos count : Nat)
  /-- Write to the first memory of the store. -/
  | writeBytes (pos : Nat) (bytes : List UInt8)
  | memoryAt (addr : Nat)
  | memoryPages (addr : Nat)
  | memoryGrow (addr delta : Nat)
  | memoryRead (addr pos count : Nat)
  | memoryWrite (addr pos : Nat) (bytes : List UInt8)
  | memoryFill (addr : Nat) (value : UInt8) (pos count : Nat)
  | memoryCopy (addr dst src count : Nat)
  | tableAt (addr : Nat)
  | tableSize (addr : Nat)
  | tableGet (addr idx : Nat)
  | tableSet (addr idx : Nat) (value : Value)
  | tableGrow (addr : Nat) (delta : UInt32) (value : Value)
  | tableFill (addr pos : Nat) (value : Value) (count : Nat)

/-- What an access replies. An operation on a memory or table at an address replies none if
there is none there. -/
@[reducible] def Access.Reply : Access → Type
  | .frames => Array Frame
  | .fuel => Option UInt64
  | .setFuel _ => Unit
  | .funcAt _ => Option FuncView
  | .funcType _ => Option FuncType
  | .getFunc .. => Option Nat
  | .instanceByName _ => Option Nat
  | .instanceAt _ => Option Instance
  | .exported .. => Option ExternVal
  | .resolveHostFunc .. => Except Trap Nat
  | .resolveExterns _ => Except Trap Externs
  | .global _ => Option Value
  | .setGlobal .. => Except Trap Unit
  | .readBytes .. => Except Trap (List UInt8)
  | .writeBytes .. => Except Trap Unit
  | .memoryAt _ => Option Memory
  | .memoryPages _ => Option Nat
  | .memoryGrow .. => Option (Option Nat)
  | .memoryRead .. => Option (Except Trap (List UInt8))
  | .memoryWrite .. => Option (Except Trap Unit)
  | .memoryFill .. => Option (Except Trap Unit)
  | .memoryCopy .. => Option (Except Trap Unit)
  | .tableAt _ => Option Table
  | .tableSize _ => Option Nat
  | .tableGet .. => Option (Option Value)
  | .tableSet .. => Option (Except Trap Unit)
  | .tableGrow .. => Option Int32
  | .tableFill .. => Option (Except Trap Unit)

/-- Operations that run guest code. -/
inductive Entry where
  | invoke (addr : Nat) (args : Array Value)
  | trampoline (addr : Nat) (args : Array Value)
  | callExport (inst : Nat) (name : String) (args : Array Value)
  | instantiate (name : String) (module : Module) (externs : Externs)
  | step
  | execute (depth : Nat)

/-- What an entry gives back if it succeeds. -/
@[reducible] def Entry.Reply : Entry → Type
  | .invoke .. => Array Value
  | .trampoline .. => Trampolined
  | .callExport .. => Outcome
  | .instantiate .. => Nat
  | .step => Unit
  | .execute _ => Unit

/-! ## Programs -/

/-- A native function with the names that it is imported by. It takes `numArgs` operands and
leaves `arity` of them, whatever its type says. The body, of kind `β`, starts from the function's
own frame, whose locals are the arguments. -/
structure HostFuncOf (β : Type) where
  module : String
  name : String
  type : FuncType
  numArgs : Nat
  arity : Nat
  body : Frame → β

/-- The program of a host function. It ends with its own frame, whose top operands are the
results, or by halting the run. -/
inductive HostProg (σ : Type) : Type where
  | done (frame : Frame)
  | halt (reason : Halt)
  | access (op : Access) (next : op.Reply → HostProg σ)
  | enter (op : Entry) (next : Except Halt op.Reply → HostProg σ)
  | register (func : HostFuncOf (HostProg σ)) (next : HostProg σ)
  | getState (next : σ → HostProg σ)
  | setState (state : σ) (next : HostProg σ)

/-- A host function. -/
abbrev HostFunc (σ : Type) := HostFuncOf (HostProg σ)

namespace HostFunc

/-- The text of a host function: its names and its type. -/
def text {σ : Type} (f : HostFunc σ) : String :=
  "<host " ++ f.module ++ "." ++ f.name ++ " " ++ f.type.name ++ ">"

/-- The key that a host function is registered under. -/
def key (module name : String) : String := module ++ "." ++ name

end HostFunc

/-! ## Writing host functions -/

/-- A part of a host program that gives a value to what follows it. -/
def HostM (σ α : Type) : Type := (α → HostProg σ) → HostProg σ

namespace HostM

variable {σ α β : Type}

instance : Monad (HostM σ) where
  pure a := fun k => k a
  bind x f := fun k => x fun a => f a k

/-- Halt the run. -/
def halt (reason : Halt) : HostM σ α := fun _ => .halt reason

/-- Look something up, or change one thing. -/
def access (op : Access) : HostM σ op.Reply := fun k => .access op k

/-- Run guest code, and take any halt as a value. -/
def tryEnter (op : Entry) : HostM σ (Except Halt op.Reply) := fun k => .enter op k

/-- Run guest code, and pass any halt on. -/
def enter (op : Entry) : HostM σ op.Reply := fun k =>
  .enter op fun
    | .ok a => k a
    | .error h => .halt h

/-- Pass a trap on. -/
def orTrap : Except Trap α → HostM σ α
  | .ok a => pure a
  | .error t => halt (.trap t)

/-- Register a host function. -/
def register (f : HostFunc σ) : HostM σ Unit := fun k => .register f (k ())

/-- The embedder's state. -/
def getState : HostM σ σ := fun k => .getState k

/-- Replace the embedder's state. -/
def setState (s : σ) : HostM σ Unit := fun k => .setState s (k ())

/-- Apply a function to the embedder's state. -/
def modifyState (f : σ → σ) : HostM σ Unit := do
  setState (f (← getState))

/-- Read a number from the first memory of the store. -/
def load (α : Type) [Native α] (pos : Nat) : HostM σ α := do
  return Native.ofBytes (← orTrap (← access (.readBytes pos (Native.size α))))

/-- Write a number to the first memory of the store. -/
def store {α : Type} [Native α] (pos : Nat) (x : α) : HostM σ Unit := do
  orTrap (← access (.writeBytes pos (Native.toBytes x)))

end HostM

/-! ## Typed host functions -/

/-- What a typed host function returns: nothing, or one native value. -/
class HostResult (α : Type) where
  types : List ValType
  values : α → Array Value

instance : HostResult Unit := ⟨[], fun _ => #[]⟩

instance {α : Type} [Native α] : HostResult α :=
  ⟨[Native.valType α], fun x => #[Native.toValue x]⟩

/-- Functions of native arguments that can serve as host functions. `run` reads the arguments off
the frame's locals, from a given one on, and gives the results. -/
class HostBody (σ φ : Type) where
  params : List ValType
  results : List ValType
  run : φ → Nat → Frame → HostM σ (Array Value)

instance {σ α : Type} [HostResult α] : HostBody σ (HostM σ α) where
  params := []
  results := HostResult.types α
  run act _ _ := do return HostResult.values (← act)

instance {σ α φ : Type} [Native α] [HostBody σ φ] : HostBody σ (α → φ) where
  params := Native.valType α :: HostBody.params σ φ
  results := HostBody.results σ φ
  run f idx frame :=
    match frame.locals[idx]? with
    | some v => HostBody.run (f (Native.ofValue v)) (idx + 1) frame
    | none => HostM.halt (.trap (.noLocal idx))

/-- The host function that a function of native arguments makes; its type is derived from that of
the function. -/
def HostFunc.typed {σ φ : Type} [HostBody σ φ] (module name : String) (f : φ) : HostFunc σ where
  module := module
  name := name
  type := ⟨HostBody.params σ φ, HostBody.results σ φ⟩
  numArgs := (HostBody.params σ φ).length
  arity := (HostBody.results σ φ).length
  body frame :=
    HostBody.run f 0 frame fun values => .done { frame with stack := frame.stack ++ values }

end WasmMachine
