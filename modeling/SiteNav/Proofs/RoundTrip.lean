import SiteNav.Codec
import SiteNav.Proofs.Json.Tree
import SiteNav.Proofs.Toml.Tables
import SiteNav.Proofs.Yaml.Tree

/-!
# Documents read back

What is written for a site is read back as that site, with nothing in it that is not understood. In
each format the text is read as a node that shows the content of the site, and from such a node every
reader of sites gets the site itself.
-/
namespace SiteNav
open Document

/-- White space after a written JSON document does not matter. -/
theorem decode_encode_json (s : Site) (ws : List Char) (hws : ∀ c ∈ ws, Json.isBlank c = true) :
    decode .json (encode .json s ++ String.ofList ws) = .ok ⟨s, []⟩ := by
  obtain ⟨root, hread, hshow⟩ := Json.read_append hws (.ofSite s)
  have htracked := Json.dialect.readTracked_of_shows s root hshow
  simp only [decode, encode, Json.write, Json.readWith, String.toList_append, String.toList_ofList,
    hread, htracked]
  rfl

theorem decode_encode_json_crlf :
    (∀ c ∈ ['\r', '\n'], Json.isBlank c = true) ∧
      decode .json (encode .json ⟨"\"a\"\\", "\u2028", "/", [⟨"g", some false, []⟩]⟩ ++
        String.ofList ['\r', '\n']) =
        .ok ⟨⟨"\"a\"\\", "\u2028", "/", [⟨"g", some false, []⟩]⟩, []⟩ :=
  ⟨by simp [Json.isBlank], decode_encode_json _ _ (by simp [Json.isBlank])⟩

theorem decode_encode_toml (s : Site) : decode .toml (encode .toml s) = .ok ⟨s, []⟩ := by
  obtain ⟨root, hread, hshow⟩ := Toml.exists_read_writeChars s
  have htracked := Toml.dialect.readTracked_of_shows s root hshow
  simp only [decode, encode, Toml.write, Toml.readWith, String.toList_ofList, hread, htracked]
  rfl

theorem decode_encode_yaml (s : Site) : decode .yaml (encode .yaml s) = .ok ⟨s, []⟩ := by
  obtain ⟨t, hread, hshow⟩ := Yaml.exists_tree_site s
  have htracked := t.dialect.readTracked_of_shows s t.root hshow
  simp only [decode, encode, Yaml.write, Yaml.readWith, String.toList_ofList, hread, htracked]
  rfl

end SiteNav
