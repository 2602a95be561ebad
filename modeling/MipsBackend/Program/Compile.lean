import MipsBackend.Assembly.Sink
import MipsBackend.Layout.Compute
import MipsBackend.Options
import MipsBackend.Program.Code

/-!
# Compilation

A program is compiled into a sink: first the data segment, then the entry point, then the program's
own methods, class by class in preorder.  Methods may be generated one after the other or each into
a buffer of its own; the sink receives them in the same order.

The threads that fill the buffers are the system's.  All that is known of them is that a pool of
threads starts or that it does not (`ThreadPool`).
-/

namespace MipsBackend

/-- What becomes of a pool that is to have some number of threads: it starts, or the system refuses
and says why. -/
abbrev ThreadPool := Nat → Except String Unit

namespace ThreadPool

/-- A pool that starts, however many threads it is to have. -/
def ready : ThreadPool :=
  fun _ => .ok ()

/-- The options ask for no pool, or for one that starts. -/
def Serves (pool : ThreadPool) (o : Options) : Prop :=
  (o.threads.count = 1 ∨ o.sequential) ∨ pool o.threads.count = .ok ()

theorem serves_ready (o : Options) : ready.Serves o :=
  Or.inr rfl

end ThreadPool

/-- Why a program without faults was not compiled. -/
inductive CompileError where
  | emit (e : WriteError)
  | threadPool (reason : String)
deriving DecidableEq

/-- The wording of the error. -/
def CompileError.message : CompileError → String
  | .emit e => e.message
  | .threadPool reason => "couldn't start code generation threads: " ++ reason

namespace Program

variable {σ : Type} [Sink σ]

/-- Generates methods one after the other into a sink. -/
def emitInTurn (p : Program) (l : Layout) (methods : List MethodId) (sink : σ) :
    Except Fault σ :=
  methods.foldlM (fun sink m => do return Sink.emitAll sink (← p.methodCode l m)) sink

/-- Generates each method into its own buffer, then moves the buffers to a sink in order. -/
def emitBuffered (p : Program) (l : Layout) (methods : List MethodId) (sink : σ) :
    Except Fault σ := do
  let buffers ← methods.mapM fun m => do return Sink.emitAll Buffer.empty (← p.methodCode l m)
  return buffers.foldl (fun sink buffer => (buffer.drainInto sink).2) sink

/-- Generates the entry point and all methods of a program into a sink.  Unless methods are to be
generated one after the other, a pool of threads has to start first. -/
def emitCode (p : Program) (o : Options) (pool : ThreadPool) (l : Layout) (sink : σ) :
    Except Fault (σ × Except CompileError Unit) := do
  let sink := Sink.emitAll sink (← p.entryCode l)
  let methods ← p.userMethods
  if o.threads.count = 1 ∨ o.sequential then
    return (← p.emitInTurn l methods sink, .ok ())
  else
    match pool o.threads.count with
    | .ok () => return (← p.emitBuffered l methods sink, .ok ())
    | .error reason => return (sink, .error (.threadPool reason))

/-- Compiles a program into a sink and flushes it.  The result is the layout, unless writing failed
or threads were refused, in which case nothing is flushed.  A fault leaves nothing behind. -/
def compile (p : Program) (o : Options) (sink : σ) (pool : ThreadPool := .ready) :
    Except Fault (σ × Except CompileError Layout) := do
  let (layout, data) ← Layout.compute p
  let sink := Sink.emitAll sink data
  let (sink, generated) ←
    if o.runCodegen then p.emitCode o pool layout sink else pure (sink, .ok ())
  match generated with
  | .ok () =>
    let (sink, written) := Sink.flush sink
    return (sink, (written.mapError .emit).map fun _ => layout)
  | .error e => return (sink, .error e)

end Program

end MipsBackend
