/-! Paths as the names that lead from the root to a place. One dot leads nowhere, two lead back, and
a path that does not begin with a slash goes on from where one is. -/

namespace QuorumLog.Path

/-- Takes a step from a place. -/
def step (place : List String) (name : String) : List String :=
  if name = "" ∨ name = "." then place
  else if name = ".." then place.dropLast
  else place ++ [name]

/-- The place to which a path leads from another place. -/
def resolve (place : List String) (path : String) : List String :=
  (path.splitOn "/").foldl step (if path.startsWith "/" then [] else place)

end QuorumLog.Path
