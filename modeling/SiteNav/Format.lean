import SiteNav.FilePath

/-!
# Document formats

A format is chosen by the file extension alone, in any ASCII case.
-/
namespace SiteNav

inductive Format where
  | toml
  | json
  | yaml
  deriving DecidableEq, Inhabited

namespace Format

def name : Format → String
  | toml => "toml"
  | json => "json"
  | yaml => "yaml"

def title : Format → String
  | toml => "Toml"
  | json => "Json"
  | yaml => "Yaml"

def ofExtension? (ext : List Char) : Option Format :=
  let lower := String.ofList (ext.map Char.toLower)
  if lower == "toml" then some toml
  else if lower == "json" then some json
  else if lower == "yaml" || lower == "yml" then some yaml
  else none

def ofPath? (path : String) : Option Format :=
  (FilePath.extension? path.toList).bind ofExtension?

end Format

end SiteNav
