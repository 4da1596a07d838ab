import WasmMachine.Trap

/-!
# Frames

A frame is one activation of a function: its code and position, its locals, its operand stack,
and the labels of the constructs that it is inside of.  The outermost label stands for the
function itself.  The operand stack has its top at the end; the labels are listed from the
innermost outwards.
-/

namespace WasmMachine

/-- Where a branch to a construct goes and what it keeps: the top `arity` operands, moved down
to `height`. -/
structure Label where
  arity : Nat
  target : Nat
  height : Nat
  deriving DecidableEq, Repr, Inhabited

/-- One activation. `func` is the function's address; none for an entry frame and for a constant
expression. `prev` is the position of the frame that the results go to. -/
structure Frame where
  func : Option Nat
  code : Code
  inst : Nat
  locals : Array Value
  stack : Array Value
  labels : List Label
  pc : Nat
  arity : Nat
  prev : Option Nat
  deriving DecidableEq, Repr, Inhabited

namespace Frame

/-- A frame at the start of its code, with an empty operand stack and the label of the function
itself. -/
def new (func : Option Nat) (code : Code) (inst : Nat) (locals : Array Value) (arity : Nat)
    (prev : Option Nat) (label : Label) : Frame :=
  { func, code, inst, locals, stack := #[], labels := [label], pc := 0, arity, prev }

/-- The frame below a call from outside: it holds the arguments and takes the results. -/
def entry (inst : Nat) (args : Array Value) : Frame :=
  { func := none, code := #[], inst, locals := #[], stack := args, labels := [], pc := 0,
    arity := 0, prev := none }

/-- Whether a construct or the function itself is still open. -/
def hasLabel (f : Frame) : Bool := !f.labels.isEmpty

/-- The top `count` operands, in the order in which they were pushed; none if there are fewer. -/
def top? (f : Frame) (count : Nat) : Option (Array Value) :=
  if count ≤ f.stack.size then some (f.stack.extract (f.stack.size - count) f.stack.size)
  else none

end Frame

/-- Operations on one frame. -/
abbrev FrameM := EStateM Trap Frame

namespace FrameM

/-- Push an operand. -/
def push (v : Value) : FrameM Unit := fun f => .ok () { f with stack := f.stack.push v }

/-- Push operands, the first of them first. -/
def pushAll (vs : Array Value) : FrameM Unit := fun f => .ok () { f with stack := f.stack ++ vs }

/-- Pop an operand. -/
def pop : FrameM Value := fun f =>
  if h : 0 < f.stack.size then .ok f.stack.back { f with stack := f.stack.pop }
  else .error .stackUnderflow f

/-- Pop an operand and read it as a number of 32 bits. -/
def popNat : FrameM Nat := do
  return (← pop).u32.toNat

/-- The top operand. -/
def peek : FrameM Value := fun f =>
  if h : 0 < f.stack.size then .ok f.stack.back f
  else .error .stackUnderflow f

/-- Pop the top `count` operands, in the order in which they were pushed. -/
def popAll (count : Nat) : FrameM (Array Value) := fun f =>
  match f.top? count with
  | some vs => .ok vs { f with stack := f.stack.shrink (f.stack.size - count) }
  | none => .error .stackUnderflow f

/-- Enter a construct, whose parameters are on the stack already. -/
def pushLabel (arity target params : Nat) : FrameM Unit := fun f =>
  if params ≤ f.stack.size then
    .ok () { f with labels := ⟨arity, target, f.stack.size - params⟩ :: f.labels }
  else
    .error .stackUnderflow f

/-- Leave the innermost construct. -/
def popLabel : FrameM Unit := fun f =>
  match f.labels with
  | [] => .error .labelUnderflow f
  | _ :: labels => .ok () { f with labels }

/-- Branch to a label, counted from the innermost: keep the operands that it asks for, drop the
others down to its height, leave its construct, and go to its target. -/
def branch (depth : Nat) : FrameM Unit := fun f =>
  match f.labels[depth]? with
  | none => .error (.unknownLabel depth) f
  | some ⟨arity, target, height⟩ =>
    if height + arity ≤ f.stack.size then
      let kept := f.stack.extract (f.stack.size - arity) f.stack.size
      .ok () { f with
        stack := f.stack.shrink height ++ kept
        labels := f.labels.drop (depth + 1)
        pc := target }
    else
      .error .stackUnderflow f

/-- Branch to the label of the function itself. -/
def ret : FrameM Unit := fun f =>
  if f.labels.isEmpty then .error .labelUnderflow f
  else branch (f.labels.length - 1) f

/-- Continue at a position. -/
def jump (pc : Nat) : FrameM Unit := fun f => .ok () { f with pc }

/-- Go on to the next instruction. -/
def advance : FrameM Unit := fun f => .ok () { f with pc := f.pc + 1 }

/-- The value of a local. -/
def getLocal (idx : Nat) : FrameM Value := fun f =>
  match f.locals[idx]? with
  | some v => .ok v f
  | none => .error (.noLocal idx) f

/-- Set a local. -/
def setLocal (idx : Nat) (v : Value) : FrameM Unit := fun f =>
  if idx < f.locals.size then .ok () { f with locals := f.locals.setIfInBounds idx v }
  else .error (.noLocal idx) f

end FrameM

end WasmMachine
