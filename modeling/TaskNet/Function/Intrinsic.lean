import TaskNet.Function.Overload

/-!
The intrinsic functions that preconditions may call.
-/

namespace TaskNet.OverloadTable

open TypeTag

/-- The intrinsic functions in registration order. -/
def intrinsicList : List (String × Signature) :=
  ([int8, int32, int64, float].map fun t => ("abs", ⟨t, [t]⟩)) ++
  (["min", "max"].flatMap fun name =>
    [int32, int64, float].map fun t => (name, ⟨t, [t, t]⟩)) ++
  (["sqrt", "sin", "cos", "floor", "ceil"].map fun name => (name, ⟨float, [float]⟩)) ++
  [("vec3", ⟨vec3, [float, float, float]⟩),
   ("dot", ⟨float, [vec3, vec3]⟩),
   ("cross", ⟨vec3, [vec3, vec3]⟩),
   ("length", ⟨float, [vec3]⟩),
   ("dist", ⟨float, [vec3, vec3]⟩)] ++
  (["x", "y", "z"].map fun name => (name, ⟨float, [vec3]⟩))

def intrinsics : OverloadTable :=
  intrinsicList.foldl (fun t e => (t.register e.1 e.2).1) empty

end TaskNet.OverloadTable
