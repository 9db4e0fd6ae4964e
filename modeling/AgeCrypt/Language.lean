/-!
# Languages

The texts of this library come in one language, which also serves every request for another one.
-/

namespace AgeCrypt.Language

def fallback : String := "en-US"

/-- The languages in which there are texts. -/
def available : List String := [fallback]

/-- The languages that serve a request, of which the last is the one for texts that the others lack. -/
def select (requested : List String) : List String :=
  available.filter (fun language => language ≠ fallback && requested.contains language) ++ [fallback]

end AgeCrypt.Language
