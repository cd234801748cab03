/-!
# Trails

A walk along a partial step function, bounded in length, that can stop early. All walks along the
links of a chain are trails, so a loop of links cannot keep one from ending.
-/

namespace Restyle

structure Trail (α : Type) where
  /-- Where the walk ended. -/
  last : α
  /-- The places before that, the latest first. -/
  passed : List α
  deriving DecidableEq, Repr

namespace Trail
variable {α : Type}

/-- Goes on from `a`, with the places of `passed` behind it. -/
def go (step : α → Option α) (stop : α → Bool) : Nat → α → List α → Trail α
  | 0, a, passed => ⟨a, passed⟩
  | n + 1, a, passed =>
    if stop a then ⟨a, passed⟩
    else
      match step a with
      | none => ⟨a, passed⟩
      | some b => go step stop n b (a :: passed)

/-- The walk from `a`, of at most `n` steps, that ends early where `stop` holds or no step leads
on. -/
def walk (step : α → Option α) (stop : α → Bool) (n : Nat) (a : α) : Trail α := go step stop n a []

def toList (t : Trail α) : List α := (t.last :: t.passed).reverse

end Trail

end Restyle
