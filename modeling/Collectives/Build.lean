import Collectives.Communicator
import Collectives.Schedule

/-!
# Building schedules

`Build` is work on a schedule that may stop early. What was appended before it stopped stays
appended, so a step that must not leave traces has to check before it creates.
-/

namespace Collectives

abbrev Build := ExceptT Failure (StateM Schedule)

namespace Build

/-- The outcome of `work` on `s`, and the schedule that it leaves behind. -/
def runOn {α : Type} (work : Build α) (s : Schedule) : Except Failure α × Schedule :=
  StateT.run (ExceptT.run work) s

def scheduleFrom {α : Type} (work : Build α) (s : Schedule) : Except Failure Schedule :=
  match work.runOn s with
  | (.ok _, made) => .ok made
  | (.error failure, _) => .error failure

def refuse {α : Type} (error : Error) : Build α := throw (.refused error)

def check {α : Type} : Except Error α → Build α
  | .ok a => return a
  | .error error => throw (.refused error)

def demand {α : Type} : Except Fault α → Build α
  | .ok a => return a
  | .error fault => throw (.faulted fault)

/-- Appends an operation for the local rank `rank` of `c`; the peer in `action` is local too. -/
def create (c : Communicator) (rank : Nat) (action : Action) : Build OpId := do
  let owner ← demand (c.globalOf rank)
  let action ← demand (action.mapPeerM c.globalOf)
  let (id, s) ← demand ((← get).append owner action)
  set s
  return id

def require (id dep : OpId) : Build Unit := do
  set (← check ((← get).require id dep))

variable {α β : Type}

@[simp] theorem runOn_pure (a : α) (s : Schedule) : (pure a : Build α).runOn s = (.ok a, s) := rfl

@[simp] theorem runOn_refuse (error : Error) (s : Schedule) :
    (refuse error : Build α).runOn s = (.error (.refused error), s) := rfl

@[simp] theorem runOn_check_ok (a : α) (s : Schedule) :
    (check (.ok a)).runOn s = (.ok a, s) := rfl

@[simp] theorem runOn_check_error (error : Error) (s : Schedule) :
    (check (.error error) : Build α).runOn s = (.error (.refused error), s) := rfl

@[simp] theorem runOn_demand_ok (a : α) (s : Schedule) :
    (demand (.ok a)).runOn s = (.ok a, s) := rfl

@[simp] theorem runOn_demand_error (fault : Fault) (s : Schedule) :
    (demand (.error fault) : Build α).runOn s = (.error (.faulted fault), s) := rfl

@[simp] theorem runOn_get (s : Schedule) : (get : Build Schedule).runOn s = (.ok s, s) := rfl

@[simp] theorem runOn_set (s t : Schedule) : (set t : Build Unit).runOn s = (.ok (), t) := rfl

/-- Work goes on where its first part ended, unless that stopped. -/
theorem runOn_bind (work : Build α) (next : α → Build β) (s : Schedule) :
    (work >>= next).runOn s =
      match work.runOn s with
      | (.ok a, made) => (next a).runOn made
      | (.error failure, made) => (.error failure, made) := by
  simp only [runOn, ExceptT.run, StateT.run, bind, ExceptT.bind, ExceptT.mk, StateT.bind]
  rcases work s with ⟨result, made⟩
  cases result <;> rfl

theorem runOn_map (f : α → β) (work : Build α) (s : Schedule) :
    (f <$> work).runOn s =
      match work.runOn s with
      | (.ok a, made) => (.ok (f a), made)
      | (.error failure, made) => (.error failure, made) := by
  rw [map_eq_pure_bind, runOn_bind]
  rfl

theorem runOn_require (s : Schedule) (id dep : OpId) :
    (require id dep).runOn s =
      match s.require id dep with
      | .ok made => (.ok (), made)
      | .error error => (.error (.refused error), s) := by
  simp only [require, runOn_bind, runOn_get]
  cases s.require id dep <;> simp

end Build
end Collectives
