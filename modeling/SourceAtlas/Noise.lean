import Std.Data.ExtTreeMap
import SourceAtlas.Language
import SourceAtlas.Text.Lowercase
/-!
Noise words: call names that are left out of call graphs. Some are noise everywhere, others in one
language only; case does not count.
-/

namespace SourceAtlas

structure NoiseSettings where
  common : List String := []
  languages : Std.ExtTreeMap String (List String) := ∅

/-- Noise words as they were written. -/
structure NoiseWords where
  common : List String := []
  perLanguage : Std.ExtTreeMap String (List String) := ∅

namespace NoiseWords

/-- Names that say nothing in any language. -/
def everywhere : List String :=
  ["print", "println", "printf", "eprintln", "format", "tostring", "len", "new"]

def ofLanguages (languages : LanguageSet) : NoiseWords where
  common := everywhere
  perLanguage := languages.foldl (fun words language =>
    words.insert language.tag language.noiseWords) ∅

def listed (words : NoiseWords) (tag : String) : List String :=
  words.perLanguage.getD tag []

def withSettings (words : NoiseWords) (settings : NoiseSettings) : NoiseWords where
  common := words.common ++ settings.common
  perLanguage := settings.languages.foldl (fun merged tag extra =>
    merged.insert tag (merged.getD tag [] ++ extra)) words.perLanguage

/-- Whether a call name is noise in a language, whatever its case. -/
def isNoise (words : NoiseWords) (name tag : String) : Bool :=
  let folded := Lowercase.lower name
  (words.common ++ words.listed tag).any fun word => Lowercase.lower word == folded

end NoiseWords

end SourceAtlas
