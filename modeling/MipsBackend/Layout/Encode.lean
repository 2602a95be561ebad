import MipsBackend.Json.Shape
import MipsBackend.Layout.Basic
import MipsBackend.Program.Encode

/-!
# Writing layouts as JSON

A layout is written with one entry for each node of the arenas, null where there is none.
-/

namespace MipsBackend

/-- The counts of fields and the dispatch table. -/
def ClassLayout.toJson (cl : ClassLayout) : Json := .record [
  ("num_data", .integer cl.numScalar),
  ("num_obj", .integer cl.numReference),
  ("vtable", .ofList NodeId.toJson cl.vtable)]

/-- The slot and the offsets. -/
def MethodLayout.toJson (m : MethodLayout) : Json := .record [
  ("slot", .integer m.slot),
  ("this_ptr_offset", .integer m.receiverOffset),
  ("vtable_offset", .integer m.entryOffset)]

/-- The layout. -/
def Layout.toJson (l : Layout) : Json := .record [
  ("classes", .ofList (.ofOption ClassLayout.toJson) l.classes.toList),
  ("methods", .ofList (.ofOption MethodLayout.toJson) l.methods.toList),
  ("vars", .ofList (.ofOption .integer) l.vars.toList)]

end MipsBackend
