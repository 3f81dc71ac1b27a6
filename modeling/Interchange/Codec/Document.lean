import Interchange.Codec.Basic
import Interchange.Schema.Document

/-! # Codecs straight from documents

`Codec.ofDocument` loads namespaces and generates the codec of one of them; a `DocumentFailure` says
which step went wrong.
-/

namespace Interchange

inductive DocumentFailure
  | unreadable (e : Document.Error)
  | unusable (e : GenerateError)
  | notGenerated (namespaceName : String) (e : GenerateError)
  deriving Repr

/-- What went wrong, each message followed by its cause. -/
def DocumentFailure.chain : DocumentFailure → List String
  | .unreadable e => ["failed to load IR document", e.message, e.cause.message]
  | .unusable e => [e.message]
  | .notGenerated name e => ["failed to generate namespace '" ++ name ++ "'", e.message]

/-- Loads a list of namespaces (`Schema.loadNamespaces`) and generates the codec of one of them
under default settings. -/
def Codec.ofDocument (bs : List UInt8) (name : String) : Except DocumentFailure Codec := do
  let namespaces ← (Schema.loadNamespaces bs).mapError .unreadable
  let r ← (Registry.ofList namespaces).mapError .unusable
  (Codec.generate r {} name).mapError (.notGenerated name)

end Interchange
