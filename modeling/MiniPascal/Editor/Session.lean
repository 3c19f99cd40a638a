import MiniPascal.Editor.Report
import MiniPascal.Editor.SemanticToken

/-! A session with an editor: the documents it has open, and the answers to its messages. -/
namespace MiniPascal.Editor

/-- What an editor tells or asks. A change carries whole texts, of which the last counts. -/
inductive Message where
  | opened (uri text : String) (version : Int)
  | changed (uri : String) (version : Int) (texts : List String)
  | saved (uri : String) (text : Option String)
  | closed (uri : String)
  | tokens (uri : String)
  | shutdown
deriving Repr, DecidableEq

namespace Message

/-- Whether the editor waits for an answer. -/
def isRequest : Message → Bool
  | tokens _ | shutdown => true
  | _ => false

end Message

/-- The problems of a document, sent to the editor unasked. -/
structure Publication where
  uri : String
  reports : List Report
  version : Option Int
deriving Repr, DecidableEq

/-- The answer to a message. -/
inductive Response where
  /-- There is no answer to a notice. -/
  | silent
  /-- The coloured tokens of a document, if it is open. -/
  | tokens (tokens : Option (List SemanticToken))
  /-- The session is over. -/
  | goodbye
  /-- The session is over already. -/
  | refused
  /-- The tokens cannot be placed. -/
  | failed
deriving Repr, DecidableEq

/-- The open documents, and whether the session is over. -/
structure Session where
  documents : List (String × String)
  ended : Bool
deriving Repr, DecidableEq, Inhabited

namespace Session

/-- No documents yet. -/
def initial : Session := ⟨[], false⟩

/-- The text of a document. -/
def text? (s : Session) (uri : String) : Option String := s.documents.lookup uri

/-- The session without a document. -/
def erase (s : Session) (uri : String) : Session :=
  { s with documents := s.documents.filter (·.1 != uri) }

/-- The session with a document at the given text. -/
def put (s : Session) (uri text : String) : Session :=
  { s with documents := (uri, text) :: (s.erase uri).documents }

/-- Takes over the text of a document and publishes its problems. -/
def update (s : Session) (uri text : String) (version : Option Int) : Session × List Publication :=
  match reports? text with
  | some reports => (s.put uri text, [⟨uri, reports, version⟩])
  | none => (s, [])

/-- Handles a message of a session that has not ended. -/
def handle (s : Session) : Message → Session × Response × List Publication
  | .opened uri text version =>
    let (s, sent) := s.update uri text (some version)
    (s, .silent, sent)
  | .changed uri version texts =>
    match texts.getLast? with
    | some text =>
      let (s, sent) := s.update uri text (some version)
      (s, .silent, sent)
    | none => (s, .silent, [])
  | .saved uri text =>
    match text with
    | some text =>
      let (s, sent) := s.update uri text none
      (s, .silent, sent)
    | none => (s, .silent, [])
  | .closed uri => (s.erase uri, .silent, [⟨uri, [], none⟩])
  | .tokens uri =>
    match s.text? uri with
    | none => (s, .tokens none, [])
    | some text =>
      match semanticTokens? text with
      | some tokens => (s, .tokens (some tokens), [])
      | none => (s, .failed, [])
  | .shutdown => ({ s with ended := true }, .goodbye, [])

/-- Handles a message. Once the session is over, requests are refused and notices ignored. -/
def receive (s : Session) (m : Message) : Session × Response × List Publication :=
  if s.ended then (s, if m.isRequest then .refused else .silent, []) else s.handle m

end Session
end MiniPascal.Editor
