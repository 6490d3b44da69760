import Formulary.Json.Record
import Formulary.Registry.Views

/-!
Requests to a registry, in JSON.

A request names a method, its parameters and an identifier that the reply repeats. Reading a request
and answering it are kept apart: a request that cannot be read is answered without identifier, one
whose parameters do not fit its method with it.
-/

namespace Formulary

/-- A request: what the reply is to repeat, a method and its parameters. -/
structure Request where
  id : Option Json
  method : String
  params : Option Json

/-- What a request asks for. -/
inductive Command where
  | set (key expression : String)
  | describe (key : String)
  | delete (key : String) (mode : DeleteMode)
  | evaluate (key : String) (args : NameMap NdArray)
  | detail
  | latex
  | list

/-! ## Reading -/

namespace Request

/-- The fields of a request. -/
def fieldNames : List String := ["id", "method", "params"]

/-- Reads a request, its numbers stepwise. -/
def read? (s : List Char) : Option Request := do
  let f ← Json.Fields.read? .stepwise fieldNames s
  pure {
    id := ← f.nullable? "id" (some ·.canonical)
    method := ← f.required? "method" Json.text?
    params := ← f.nullable? "params" (some ·.canonical) }

end Request

namespace Command

/-- The code of a fault of parameters. -/
def invalidParams : String := "INVALID_PARAMS"

/-- The parameters do not fit the method. -/
def badParams : Fault :=
  .ofCause (.stated invalidParams "Invalid params: a parameter is missing or has the wrong form")

/-- No method has the given name. -/
def unknownMethod (name : String) : Fault :=
  (Fault.ofCause (.stated "METHOD_NOT_FOUND" ("Unknown method: " ++ name))).advise
    "Methods: set, get, delete, evaluate, detail, latex, help, list"

/-- An argument: a number, a list of numbers, or an object that gives the data and shape of an
array. -/
def argument? (j : Json) : Option Json.ArrayRecord :=
  match j.float? with
  | some x => some ⟨[], [x]⟩
  | none =>
    match j.list? Json.float? with
    | some xs => some ⟨[xs.length], xs⟩
    | none => do
      let f ← Json.Fields.ofObject? j
      let shape ← f.required? "shape" (Json.list? Json.nat?)
      pure ⟨shape, ← f.required? "data" (Json.list? Json.float?)⟩

/-- Arguments by name. -/
def arguments? : Json → Option (List (String × Json.ArrayRecord))
  | .obj members => members.mapM fun (name, j) => (argument? j).map (name, ·)
  | _ => none

/-- The arrays of arguments. -/
def arrays (args : List (String × Json.ArrayRecord)) : Except Fault (NameMap NdArray) := do
  return .ofList (← args.mapM fun (name, a) => return (name, ← a.toArray.mapError ShapeError.fault))

/-- What the parameters give, or the fault of parameters. -/
def need {α : Type} : Option α → Except Fault α
  | some a => .ok a
  | none => .error badParams

/-- The parameter of a method that takes a key. -/
def keyParam (params : Json) : Except Fault String :=
  need do (← Json.Fields.of? ["key"] params).required? "key" Json.text?

/-- The command of a method with its parameters. -/
def ofMethod (method : String) (params : Json) : Except Fault Command :=
  match method with
  | "set" =>
    need do
      let f ← Json.Fields.of? ["key", "expression"] params
      pure (.set (← f.required? "key" Json.text?) (← f.required? "expression" Json.text?))
  | "get" | "help" => return .describe (← keyParam params)
  | "delete" =>
    need do
      let f ← Json.Fields.of? ["key", "force"] params
      let key ← f.required? "key" Json.text?
      let force ← f.defaulted? "force" false Json.bool?
      pure (.delete key (if force then .force else .guarded))
  | "evaluate" => do
    let (key, args) ← need do
      let f ← Json.Fields.of? ["key", "args"] params
      pure (← f.required? "key" Json.text?, ← f.defaulted? "args" [] arguments?)
    pure (.evaluate key (← arrays args))
  | "detail" => .ok .detail
  | "latex" => .ok .latex
  | "list" => .ok .list
  | name => .error (unknownMethod name)

end Command

/-! ## Answering -/

namespace Entry

/-- The summary of an entry that was set. -/
def summary (e : Entry) : Json :=
  .obj [("name", .str e.name), ("rhs", .ofOption .str e.rhs), ("signature", .str e.signature.text),
    ("units", .ofOption .str e.units)]

/-- All that is shown of an entry. -/
def description (e : Entry) : Json :=
  .obj [
    ("citation", .ofOption .str e.about.citation),
    ("data_shape", .ofOption (fun a : NdArray => .ofList .ofNat a.shape) e.data),
    ("defaults", .obj (e.defaults.toList.map fun (name, a) => (name, .ofList .ofNat a.shape))),
    ("dependencies", .ofList .str e.dependencies),
    ("equation", .ofOption .str e.about.equation),
    ("fill_value", .float e.fill),
    ("kind", .str e.kind),
    ("latex", .str e.latex),
    ("name", .str e.name),
    ("rhs", .ofOption .str e.rhs),
    ("signature", .str e.visibleSignature),
    ("units", .ofOption .str e.units)]

end Entry

/-- The row as a record. -/
def DetailRow.toJson (row : DetailRow) : Json :=
  .obj [("lhs", .str row.lhs), ("rhs", .ofOption .str row.rhs), ("symbol", .str row.symbol),
    ("units", .ofOption .str row.units)]

namespace Command

/-- Carries out a command: the result, and the registry after it. -/
def run (r : Registry) : Command → Except Fault (Json × Registry)
  | .set key expression => do
    let (e, r) ← r.set key (.expression expression)
    pure (e.summary, r)
  | .describe key => return ((← r.get key).description.canonical, r)
  | .delete key mode => do
    let (e, r) ← r.delete key mode
    pure (.obj [("deleted", .str e.name)], r)
  | .evaluate key args => do
    let result ← r.evaluateNamed key args
    pure ((Json.ArrayRecord.ofArray result).toJson, r)
  | .detail => .ok (.ofList DetailRow.toJson r.detail, r)
  | .latex => .ok (.ofList .str r.latex, r)
  | .list => .ok (.ofList .str r.keys, r)

end Command

/-- A reply: the identifier of the request, and a result or a fault. -/
structure Reply where
  id : Option Json
  result : Except Fault Json

namespace Reply

/-- What is shown of a fault in a reply. -/
def ofFault (f : Fault) : Json :=
  .obj ([("code", .str f.code), ("message", .str f.message)] ++
    Json.presentTexts [("suggestion", f.suggestion?)])

/-- The reply as a record. -/
def toJson (reply : Reply) : Json :=
  .obj ((reply.id.map fun j => ("id", j)).toList ++
    match reply.result with
    | .ok j => [("result", j)]
    | .error f => [("error", ofFault f)])

/-- The reply to what is no request. -/
def invalidRequest : Reply :=
  ⟨none, .error (.ofCause (.stated "PARSE_ERROR" "Invalid request: not a request in JSON"))⟩

end Reply

namespace Registry

/-- The reply to a request, and the registry after it; without parameters there are none. -/
def reply (r : Registry) (request : Request) : Reply × Registry :=
  let result := do
    (← Command.ofMethod request.method (request.params.getD (.obj []))).run r
  match result with
  | .ok (j, r) => (⟨request.id, .ok j⟩, r)
  | .error f => (⟨request.id, .error f⟩, r)

/-- The reply to a line of text, and the registry after it. A blank line has none. -/
def replyLine (r : Registry) (line : String) : Option Reply × Registry :=
  let text := trim line.toList
  if text.isEmpty then (none, r)
  else
    match Request.read? text with
    | some request =>
      let (reply, r) := r.reply request
      (some reply, r)
    | none => (some .invalidRequest, r)

end Registry

end Formulary
