import ScriptLint.Config.Settings
import ScriptLint.Text.Similarity

/-!
The setting that an unknown name was probably meant for.
-/
namespace ScriptLint.Settings
set_option autoImplicit false

def respell (name : String) : List Char :=
  name.toList.map fun c => if c = '_' then '-' else c.toLower

def better (best : Option (Binary64 × Key)) (next : Binary64 × Key) : Option (Binary64 × Key) :=
  match best with
  | none => some next
  | some current => if current.1.sizeLe next.1 then some next else some current

/-- The most similar setting of those with a similarity of at least 0.8, the later one of two that are equal. -/
def suggest? (name : String) : Option Key :=
  let scored := Key.all.map fun key => (Similarity.jaroWinkler (respell name) key.name.toList, key)
  let close := scored.filter fun entry => (Similarity.quotient 8 10).sizeLe entry.1
  (close.foldl better none).map (·.2)

end ScriptLint.Settings
