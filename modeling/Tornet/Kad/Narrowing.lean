import Tornet.Kad.Search

/-! Which of the reported hosts a search goes on with: the comparison of the code, of an id with a distance, and the
one by distance that its comment describes. -/
namespace Tornet.Kad
open Library Runs

namespace Search

variable {s s' : Search}

/-- The host is not a result, and there is room or it is nearer to the target than the farthest result. -/
def admits (s : Search) (h : Host) : Bool :=
  !s.results.contains (s.dist h.id) &&
    (decide (s.results.size < s.n.toNat) || s.results.lastKey?.any fun far => s.dist h.id < far)

/-- The id of the host and its distance are on the same side of the farthest result, where that is asked. -/
def SameSide (s : Search) (h : Host) : Prop :=
  s.dist h.id ∈ s.results.keys ∨ s.results.size < s.n.toNat ∨
    ∀ far ∈ s.results.lastKey?, h.id < far ↔ s.dist h.id < far

end Search

end Tornet.Kad
