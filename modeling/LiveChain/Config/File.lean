import LiveChain.Config.Settings
import LiveChain.Text.Utf8
import LiveChain.Toml.Document

/-!
# Configuration files

A file holds a configuration as a TOML document in UTF-8. Without a file the standard one holds.
-/

set_option autoImplicit false

namespace LiveChain.Config

open Text

def fileName : String := "chainedit.toml"

/-- Why a file holds no configuration: it is no text, no document, or its data have issues. -/
inductive LoadError where
  | undecodable (e : Utf8Error)
  | malformed (e : TomlError)
  | invalid (issues : List Issue)

/-- The configuration that a file holds. Without a file it is the standard one. -/
def load (content : Option (List UInt8)) : Except LoadError Config := do
  match content with
  | none => return standard
  | some bytes =>
    let text ← (decodeUtf8 bytes).mapError .undecodable
    let data ← (parseToml text).mapError .malformed
    match ofDatum data with
    | .valid c => return c
    | .invalid issues => throw (.invalid issues)

end LiveChain.Config
