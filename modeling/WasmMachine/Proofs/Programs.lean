import WasmMachine.Instantiate

/-!
# Host programs

Statements about every host program are proved by induction on its tree (`HostProg.induct`).  A
rule for host programs says which accesses they may make, and which entries, in view of what they
go on with; a program that obeys it does so in everything that it does and registers
(`HostProg.Obeys`).
-/

namespace WasmMachine

variable {σ : Type}

/-- Induction on a program and on the programs that it registers. -/
theorem HostProg.induct {motive : HostProg σ → Prop} (done : ∀ frame, motive (.done frame))
    (halt : ∀ reason, motive (.halt reason))
    (access : ∀ op next, (∀ reply, motive (next reply)) → motive (.access op next))
    (enter : ∀ op next, (∀ reply, motive (next reply)) → motive (.enter op next))
    (register : ∀ func next, (∀ frame, motive (func.body frame)) → motive next →
      motive (.register func next))
    (getState : ∀ next, (∀ s, motive (next s)) → motive (.getState next))
    (setState : ∀ s next, motive next → motive (.setState s next)) (p : HostProg σ) : motive p :=
  @HostProg.rec σ motive (fun f => ∀ frame, motive (f.body frame)) done halt access enter register
    getState setState (fun _ _ _ _ _ _ bodies => bodies) p

/-- Programs whose accesses are of one kind, and whose entries are of one kind in view of what
follows them. What they register has to be so in turn. -/
inductive HostProg.Obeys (A : Access → Prop)
    (E : (op : Entry) → (Except Halt op.Reply → HostProg σ) → Prop) : HostProg σ → Prop
  | done (frame : Frame) : Obeys A E (.done frame)
  | halt (reason : Halt) : Obeys A E (.halt reason)
  | access {op : Access} {next : op.Reply → HostProg σ} :
    A op → (∀ reply, Obeys A E (next reply)) → Obeys A E (.access op next)
  | enter {op : Entry} {next : Except Halt op.Reply → HostProg σ} :
    E op next → (∀ reply, Obeys A E (next reply)) → Obeys A E (.enter op next)
  | register {f : HostFunc σ} {next : HostProg σ} :
    (∀ frame, Obeys A E (f.body frame)) → Obeys A E next → Obeys A E (.register f next)
  | getState {next : σ → HostProg σ} : (∀ s, Obeys A E (next s)) → Obeys A E (.getState next)
  | setState (s : σ) {next : HostProg σ} : Obeys A E next → Obeys A E (.setState s next)

end WasmMachine
