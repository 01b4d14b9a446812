import SiteNav.Format
import SiteNav.Json.Dialect
import SiteNav.Json.Writer
import SiteNav.Toml.Dialect
import SiteNav.Toml.Writer
import SiteNav.Yaml.Dialect
import SiteNav.Yaml.Writer

/-!
# Sites as documents

Reading a document gives a site and the dotted paths of the entries that are no part of it, or the
reason why there is none. Writing cannot fail.
-/
namespace SiteNav

inductive DecodeError where
  | json (e : Json.Error)
  /-- An error in a TOML text, which its message quotes. -/
  | toml (e : Toml.Error) (text : String)
  | yaml (e : Yaml.Error)

def DecodeError.message : DecodeError → String
  | json e => "JSON parse error: " ++ e.message
  | toml e text => "TOML parse error: " ++ e.message text.toList
  | yaml e => "YAML parse error: " ++ e.message

structure Decoded where
  site : Site
  /-- Dotted paths, such as `sidebar.0.icon`, in the order the entries are read. -/
  ignored : List String

def Decoded.ofTracked (r : Site × List Document.Path) : Decoded :=
  ⟨r.1, r.2.map (·.dotted)⟩

def decode (format : Format) (text : String) : Except DecodeError Decoded :=
  match format with
  | .json => ((Json.readWith Json.dialect.readTracked text).map .ofTracked).mapError .json
  | .toml => ((Toml.readWith Toml.dialect.readTracked text).map .ofTracked).mapError (.toml · text)
  | .yaml =>
    ((Yaml.readWith (fun t => t.dialect.readTracked t.root) text).map .ofTracked).mapError .yaml

inductive Part : Type → Type where
  | site : Part Site
  | group : Part Group
  | item : Part Item

/-- Reads a document as a site or a part of one, without keeping track of other entries. -/
def decodePart {α : Type} (part : Part α) (format : Format) (text : String) :
    Except DecodeError α :=
  match format with
  | .json =>
    let reader : Json.Node → Except Json.Error α :=
      match part with
      | .site => Json.dialect.readSite
      | .group => Json.dialect.readGroup []
      | .item => Json.dialect.readItem []
    (Json.readWith reader text).mapError .json
  | .toml =>
    let reader : Toml.Node → Except Toml.Error α :=
      match part with
      | .site => Toml.dialect.readSite
      | .group => Toml.dialect.readGroup []
      | .item => Toml.dialect.readItem []
    (Toml.readWith reader text).mapError (.toml · text)
  | .yaml =>
    let reader : Yaml.Tree → Yaml.Reading α := fun t =>
      match part with
      | .site => t.dialect.readSite t.root
      | .group => t.dialect.readGroup [] t.root
      | .item => t.dialect.readItem [] t.root
    (Yaml.readWith reader text).mapError .yaml

def encode (format : Format) (s : Site) : String :=
  match format with
  | .json => Json.write s
  | .toml => Toml.write s
  | .yaml => Yaml.write s

end SiteNav
