import MiniPascal.Editor.Session
import MiniPascal.Json.Basic

/-! What a session sends, as JSON. -/
namespace MiniPascal.Editor

/-- A natural number as JSON. -/
def natJson (n : Nat) : Json := .int n

/-- A place as JSON. -/
def Position.toJson (p : Position) : Json :=
  .object [("line", natJson p.line), ("character", natJson p.character)]

/-- A stretch as JSON. -/
def TextRange.toJson (r : TextRange) : Json :=
  .object [("start", r.start.toJson), ("end", r.stop.toJson)]

/-- A problem as JSON. Every problem is an error. -/
def Report.toJson (r : Report) : Json :=
  .object [("range", r.range.toJson), ("severity", natJson 1), ("code", .string r.code.name),
    ("source", .string "pasc"), ("message", .string r.message)]

/-- A message to the editor as JSON. -/
def messageJson (method : String) (params : Json) : Json :=
  .object [("method", .string method), ("params", params)]

/-- A publication as JSON. A version that is not known is left out. -/
def Publication.toJson (p : Publication) : Json :=
  messageJson "textDocument/publishDiagnostics" (.object
    ([("uri", Json.string p.uri), ("diagnostics", .array (p.reports.map Report.toJson))] ++
      p.version.toList.map fun v => ("version", Json.int v)))

/-- Coloured tokens as JSON: all their numbers in one list. -/
def tokensJson (tokens : List SemanticToken) : Json :=
  .object [("data", .array (tokens.flatMap (·.numbers.map natJson)))]

/-- A result as JSON. -/
def resultJson (j : Json) : Json := .object [("result", j)]

/-- An error code as JSON. -/
def errorJson (code : Int) : Json := .object [("error", .int code)]

/-- A response as JSON. -/
def Response.toJson : Response → Json
  | silent => .null
  | tokens none | goodbye => resultJson .null
  | tokens (some ts) => resultJson (tokensJson ts)
  | refused => errorJson (-32600)
  | failed => errorJson (-32603)

/-- What the server can do, as it says at the start of a session. -/
def capabilities : Json :=
  .object [
    ("serverInfo", .object [("name", .string "pasc-analyzer"), ("version", .string "0.1.0")]),
    ("capabilities", .object [
      ("textDocumentSync", .object [("openClose", .bool true), ("change", natJson 1),
        ("save", .object [("includeText", .bool true)])]),
      ("semanticTokensProvider", .object [
        ("legend", .object [
          ("tokenTypes", .array (TokenClass.all.map fun c => .string c.legendName)),
          ("tokenModifiers", .array [])]),
        ("full", .bool true)])])]

/-- What the server sends once the session has begun. -/
def greeting : Json :=
  messageJson "window/logMessage"
    (.object [("type", natJson 3), ("message", .string "pasc-analyzer initialized")])

end MiniPascal.Editor
