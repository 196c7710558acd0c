import Collectives.Error

/-!
# Phases

The phases of one rank run in order. Each gets the next tag and what the latest phase that did
anything left behind. The last tag can be used once; after it the tags are spent.
-/

namespace Collectives

structure Phases where
  /-- The tag of the next phase; none when the tags are spent. -/
  tag : Option Tag
  /-- The last operation of the latest phase that had one. -/
  handle : Option OpId := none
  count : Nat := 0
  deriving DecidableEq, Repr

namespace Phases

def start (base : Tag) : Phases := { tag := some base }

def current (p : Phases) : Except Error Tag :=
  match p.tag with
  | some tag => .ok tag
  | none => .error (.tagOverflow Tag.last)

/-- The state after a phase that left `handle` behind; a phase without a handle keeps the one from
before. -/
def advance (p : Phases) (handle : Option OpId) : Phases where
  tag := p.tag.bind Tag.next?
  handle := handle.or p.handle
  count := p.count + 1

/-- Runs `body` with the next tag and the handle. If the tags are spent, `body` is not run; if it
fails, there is no new state. -/
def phase {m : Type → Type} [Monad m] [MonadExceptOf Failure m] (p : Phases)
    (body : Tag → Option OpId → m (Option OpId)) : m Phases := do
  match p.current with
  | .error error => throw (.refused error)
  | .ok tag => return p.advance (← body tag p.handle)

end Phases
end Collectives
