import Restyle.Rule.ConstructorDefaults

/-!
# The rules that come with the library
-/

namespace Restyle

/-- In the order in which a pass runs them. -/
def Rule.shipped : List Rule := [ConstructorDefaults.rule]

end Restyle
