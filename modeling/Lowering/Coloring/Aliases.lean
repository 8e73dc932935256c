import Lowering.Temp
import Std.Data.TreeMap

/-!
# Aliases

A node that is merged into another points to it, and that one may be merged in turn.  So
pointers form ways, and at the end of the way from a node is its leader, which points to
itself.  Looking up a leader goes all the way, and then lets every node on it point to the
leader, which makes the next look shorter.

## Main definitions

* `Aliases` — where each node points.
* `Aliases.point` — the change that a merge makes.
* `Aliases.find` — the leader of a node, and the pointers afterwards.
-/

namespace Lowering

/-- Where each node points. -/
structure Aliases where
  /-- Where a node points that does not point to itself. -/
  targets : Std.TreeMap Temp Temp

namespace Aliases

/-- Every node points to itself. -/
def initial : Aliases := ⟨∅⟩

/-- Where a node points. -/
def target (p : Aliases) (t : Temp) : Temp := p.targets.getD t t

/-- Let a node point to another. -/
def point (p : Aliases) (t u : Temp) : Aliases := ⟨p.targets.insert t u⟩

theorem target_point (p : Aliases) (t u x : Temp) :
    (p.point t u).target x = if t = x then u else p.target x := by
  simp [target, point, Std.TreeMap.getD_insert]

/-- Go on from a node to where it points, at most `bound` times, and let all nodes on the way
point to its end. -/
def follow : (bound : Nat) → Aliases → Temp → Temp × Aliases
  | 0, p, t => (t, p)
  | bound + 1, p, t =>
    let next := p.target t
    if next = t then (t, p)
    else
      let (root, p) := follow bound p next
      (root, p.point t root)

/-- The end of the way from a node, and the pointers after going it.  No way has more parts than
there are nodes that point to another. -/
def find (p : Aliases) (t : Temp) : Temp × Aliases := p.follow p.targets.size t

/-- The end of the way from a node. -/
def root (p : Aliases) (t : Temp) : Temp := (p.find t).1

end Aliases

end Lowering
