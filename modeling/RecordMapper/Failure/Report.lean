import RecordMapper.Json.Typed

/-!
The document that tells a client about a failure: its kind, its status, its message, and what lies behind
it.
-/

namespace RecordMapper

namespace Fault

mutual

/-- The document of a fault. -/
def report : Fault → Json
  | .mk message code params fields =>
    .ofMembers [("message", .text message), ("code", .text code), ("fields", .ofMembers (reportFields fields)),
      ("params", .ofMembers (params.map fun (k, v) => (k, .text v)))]

/-- The documents of the faults of several fields. -/
def reportFields : List (String × List Fault) → List (String × Json)
  | [] => []
  | (field, faults) :: rest => (field, .array (reportFaults faults)) :: reportFields rest

/-- The documents of the faults of one field. -/
def reportFaults : List Fault → List Json
  | [] => []
  | f :: rest => report f :: reportFaults rest

end

end Fault

namespace Failure

/-- The members of the document of a failure. The kind of the root is there if it is another one, and so
is the fault of faulty input. -/
def report (f : Failure) : List (String × Json) :=
  let members := [("error", Json.text f.kind.name), ("status", Json.encode f.status), ("message", .text f.message)]
  let root := if f.root.kind == f.kind then [] else [("root", Json.text f.root.kind.name)]
  let fault := match f.root with
    | .validation fault => [("validation", fault.report)]
    | _ => []
  members ++ root ++ fault

end Failure

end RecordMapper
