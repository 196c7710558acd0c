import Collectives.Phases
import Mathlib.Data.List.Induction
import Mathlib.Data.List.ReduceOption

/-!
# Runs of phases

Phases run one after another, whatever becomes of each. The calls of their bodies are noted, so that
it can be seen which tag and which handle a body got, and that it was called once or not at all. The
state depends on the phases that succeeded only: on their number and on the handles that they left
behind. So tags are handed out in ascending order up to the last one, and none twice.
-/

namespace Collectives

namespace Tag

theorem toNat_le_last (tag : Tag) : tag.toNat ≤ Tag.last.toNat :=
  Nat.le_of_lt_succ tag.toNat_lt

theorem next?_ofNat {n : Nat} (h : n ≤ Tag.last.toNat) :
    Tag.next? (.ofNat n) = if n + 1 ≤ Tag.last.toNat then some (.ofNat (n + 1)) else none := by
  have hlast : (UInt32.ofNat n = Tag.last) ↔ n = Tag.last.toNat := by
    rw [← UInt32.toNat_inj, UInt32.toNat_ofNat_of_lt' (Nat.lt_succ_of_le h)]
  rw [next?, UInt32.ofNat_add]
  by_cases hn : n = Tag.last.toNat
  · rw [if_pos (hlast.2 hn), if_neg (by omega)]
  · rw [if_neg (mt hlast.1 hn), if_pos (by omega)]
    rfl

end Tag

namespace Phases

/-- A call of a body, and its answer. -/
structure Call where
  tag : Tag
  handle : Option OpId
  answer : Except Failure (Option OpId)

/-- What became of a phase: the calls of its body, and whether the phase succeeded. -/
structure Turn where
  calls : List Call
  result : Except Failure Unit

/-- The body of a phase works on a state of its own, and may have changed it when it fails. -/
abbrev Body (σ : Type) := Tag → Option OpId → ExceptT Failure (StateM σ) (Option OpId)

/-- Phases in use, with the calls since the latest turn began and with what the bodies work on. -/
structure Session (σ : Type) where
  phases : Phases
  calls : List Call := []
  work : σ

variable {σ : Type}

/-- Calls a body and notes the call. -/
def noted (body : Body σ) (tag : Tag) (handle : Option OpId) :
    ExceptT Failure (StateM (Session σ)) (Option OpId) :=
  ExceptT.mk do
    let session ← get
    let (answer, work) := (body tag handle).run.run session.work
    let call : Call := { tag, handle, answer }
    set { session with calls := session.calls ++ [call], work }
    return answer

/-- Runs a phase and takes over the state that it comes to. -/
def proceed (body : Body σ) : ExceptT Failure (StateM (Session σ)) Unit := do
  let next ← (← get).phases.phase (noted body)
  modify fun session => { session with phases := next }

def turn (body : Body σ) : StateM (Session σ) Turn := do
  modify fun session => { session with calls := [] }
  let result ← (proceed body).run
  return { calls := (← get).calls, result }

/-- Runs phases in order; after one that failed the next one is run all the same. -/
def turns (bodies : List (Body σ)) : StateM (Session σ) (List Turn) := bodies.mapM turn

@[simp] theorem run_noted (body : Body σ) (tag : Tag) (handle : Option OpId) (session : Session σ) :
    (noted body tag handle).run.run session =
      let called := (body tag handle).run.run session.work
      (called.1, { session with
        calls := session.calls ++ [⟨tag, handle, called.1⟩], work := called.2 }) := rfl

section Phase

variable {m : Type → Type} [Monad m] [MonadExceptOf Failure m] {p : Phases}
  (body : Tag → Option OpId → m (Option OpId))

theorem phase_of_tag {tag : Tag} (h : p.tag = some tag) :
    p.phase body = do return p.advance (← body tag p.handle) := by
  simp only [phase, current, h]

theorem phase_of_spent (h : p.tag = none) :
    p.phase body = throw (.refused (.tagOverflow Tag.last)) := by
  simp only [phase, current, h]

end Phase

variable {session : Session σ}

theorem run_proceed (body : Body σ) (session : Session σ) :
    (proceed body).run.run session =
      (ExceptT.run do
        let next ← session.phases.phase (noted body)
        modify fun session => { session with phases := next }).run session := rfl

/-- While there is a tag, a body is called with it once, and its answer decides what follows. -/
theorem run_turn_of_tag {tag : Tag} (h : session.phases.tag = some tag) (body : Body σ) :
    (turn body).run session =
      let called := (body tag session.phases.handle).run.run session.work
      let calls := [⟨tag, session.phases.handle, called.1⟩]
      ({ calls, result := called.1.map fun _ => () },
        { phases := called.1.toOption.elim session.phases session.phases.advance
          calls, work := called.2 }) := by
  have hproceed := run_proceed body { session with calls := [] }
  simp only [phase_of_tag _ h, bind_pure_comp, ExceptT.run_bind, ExceptT.run_map, StateT.run_bind,
    StateT.run_map, run_noted] at hproceed
  simp only [turn, StateT.run_bind, StateT.run_modify, pure_bind, hproceed]
  rcases (body tag session.phases.handle).run.run session.work with ⟨_ | handle, work⟩ <;> rfl

theorem run_turn_of_spent (h : session.phases.tag = none) (body : Body σ) :
    (turn body).run session =
      ({ calls := [], result := .error (.refused (.tagOverflow Tag.last)) },
        { session with calls := [] }) := by
  have hproceed := run_proceed body { session with calls := [] }
  rw [phase_of_spent _ h] at hproceed
  simp only [turn, StateT.run_bind, StateT.run_modify, pure_bind, hproceed]
  rfl

/-- The calls of the phases that succeeded. -/
def successes (done : List Turn) : List Call := (done.filter (·.result.isOk)).flatMap (·.calls)

/-- The state that the successful phases alone come to, given what each left behind. -/
def reached (base : Tag) (left : List (Option OpId)) : Phases where
  tag :=
    if base.toNat + left.length ≤ Tag.last.toNat then some (.ofNat (base.toNat + left.length))
    else none
  handle := left.reduceOption.getLast?
  count := left.length

theorem reached_nil (base : Tag) : reached base [] = start base := by
  simp [reached, start, Tag.toNat_le_last]

/-- One more success moves the tag on; it does so also when the tags are spent already. -/
theorem advance_reached (base : Tag) (left : List (Option OpId)) (handle : Option OpId) :
    (reached base left).advance handle = reached base (left ++ [handle]) := by
  have htag : (reached base left).tag.bind Tag.next? = (reached base (left ++ [handle])).tag := by
    simp only [reached, List.length_append, List.length_singleton]
    by_cases h : base.toNat + left.length ≤ Tag.last.toNat
    · rw [if_pos h, Option.bind_some, Tag.next?_ofNat h, Nat.add_assoc]
    · rw [if_neg h, if_neg (by omega), Option.bind_none]
  have hhandle : handle.or (reached base left).handle =
      (reached base (left ++ [handle])).handle := by
    cases handle <;> simp [reached, List.reduceOption_append]
  simp only [advance, htag, hhandle]
  simp [reached]

/-- How many phases succeeded. -/
def successCount (done : List Turn) : Nat := done.countP (·.result.isOk)

theorem successCount_append (done : List Turn) (turn : Turn) :
    successCount (done ++ [turn]) = successCount done + if turn.result.isOk then 1 else 0 := by
  simp [successCount, List.countP_append, List.countP_singleton]

theorem successes_fail (done : List Turn) (calls : List Call) (failure : Failure) :
    successes (done ++ [⟨calls, .error failure⟩]) = successes done := by
  rw [successes, List.filter_append, List.flatMap_append]
  exact List.append_nil _

theorem successes_succeed (done : List Turn) (calls : List Call) :
    successes (done ++ [⟨calls, .ok ()⟩]) = successes done ++ calls := by
  rw [successes, List.filter_append, List.flatMap_append]
  exact congrArg (successes done ++ ·) (List.append_nil calls)

/-- The phases that succeeded left `left` behind, each in one call of its body, under tags that go
up by one, and the state is as they have left it. -/
structure Accounts (base : Tag) (done : List Turn) (left : List (Option OpId)) (phases : Phases) :
    Prop where
  phases_eq : phases = reached base left
  number : successCount done = left.length
  answers : (successes done).map (·.answer) = left.map .ok
  tags : (successes done).map (·.tag.toNat) = List.range' base.toNat left.length

theorem accounts_start (base : Tag) : Accounts base [] [] (start base) where
  phases_eq := (reached_nil base).symm
  number := rfl
  answers := rfl
  tags := rfl

variable {base : Tag} {done : List Turn} {left : List (Option OpId)}

/-- A phase that failed changes nothing. -/
theorem Accounts.fail {phases : Phases} (h : Accounts base done left phases) (calls : List Call)
    (failure : Failure) : Accounts base (done ++ [⟨calls, .error failure⟩]) left phases where
  phases_eq := h.phases_eq
  number := (successCount_append _ _).trans h.number
  answers := by rw [successes_fail, h.answers]
  tags := by rw [successes_fail, h.tags]

theorem Accounts.succeed {phases : Phases} (h : Accounts base done left phases) {tag : Tag}
    (htag : tag.toNat = base.toNat + left.length) (before handle : Option OpId) :
    Accounts base (done ++ [⟨[⟨tag, before, .ok handle⟩], .ok ()⟩]) (left ++ [handle])
      (phases.advance handle) where
  phases_eq := by rw [h.phases_eq, advance_reached]
  number := by
    rw [List.length_append, ← h.number]
    exact successCount_append _ _
  answers := by simp [successes_succeed, h.answers]
  tags := by simp [successes_succeed, h.tags, List.range'_concat, htag]

theorem Accounts.toNat_tag {phases : Phases} (h : Accounts base done left phases) {tag : Tag}
    (htag : phases.tag = some tag) : tag.toNat = base.toNat + left.length := by
  rw [h.phases_eq, reached] at htag
  split at htag
  case isTrue hle =>
    rw [← Option.some.inj htag, UInt32.toNat_ofNat_of_lt' (Nat.lt_succ_of_le hle)]
  case isFalse => cases htag

theorem Accounts.spent_iff {phases : Phases} (h : Accounts base done left phases) :
    phases.tag = none ↔ Tag.last.toNat < base.toNat + left.length := by
  rw [h.phases_eq, reached]
  split <;> simp <;> omega

/-- A turn keeps the accounts; a phase that succeeded adds what it left behind. -/
theorem Accounts.turn {session : Session σ} (h : Accounts base done left session.phases)
    (body : Body σ) :
    ∃ more, Accounts base (done ++ [((Phases.turn body).run session).1]) (left ++ more)
      ((Phases.turn body).run session).2.phases := by
  cases htag : session.phases.tag with
  | none =>
    rw [run_turn_of_spent htag]
    exact ⟨[], (List.append_nil left).symm ▸ h.fail [] _⟩
  | some tag =>
    rw [run_turn_of_tag htag]
    rcases (body tag session.phases.handle).run.run session.work with ⟨failure | handle, work⟩
    · exact ⟨[], (List.append_nil left).symm ▸ h.fail _ failure⟩
    · exact ⟨[handle], h.succeed (h.toNat_tag htag) _ handle⟩

/-- A phase that failed leaves the state as it was, whatever its body did before. -/
theorem phases_of_failed (session : Session σ) (body : Body σ)
    (h : ((turn body).run session).1.result.isOk = false) :
    ((turn body).run session).2.phases = session.phases := by
  cases htag : session.phases.tag with
  | none => rw [run_turn_of_spent htag]
  | some tag =>
    rw [run_turn_of_tag htag] at h ⊢
    dsimp only at h ⊢
    cases hanswer : ((body tag session.phases.handle).run.run session.work).1 with
    | error failure => rfl
    | ok handle =>
      rw [hanswer] at h
      cases h

theorem run_turns_append (earlier : List (Body σ)) (body : Body σ) (session : Session σ) :
    (turns (earlier ++ [body])).run session =
      (((turns earlier).run session).1 ++ [((turn body).run ((turns earlier).run session).2).1],
        ((turn body).run ((turns earlier).run session).2).2) := by
  rw [turns, List.mapM_append, StateT.run_bind]
  simp only [List.mapM_cons, List.mapM_nil, bind_pure_comp, StateT.run_map]
  rfl

theorem exists_accounts (base : Tag) (bodies : List (Body σ)) (work : σ) :
    ∃ left, Accounts base ((turns bodies).run { phases := start base, work }).1 left
      ((turns bodies).run { phases := start base, work }).2.phases := by
  -- From the end: a phase sees what all phases before it have come to.
  induction bodies using List.reverseRecOn with
  | nil => exact ⟨[], accounts_start base⟩
  | append_singleton earlier body ih =>
    obtain ⟨left, h⟩ := ih
    obtain ⟨more, hmore⟩ := h.turn body
    rw [run_turns_append]
    exact ⟨left ++ more, hmore⟩

/-- Once the tags are spent no body is called any more. -/
theorem run_turns_of_spent {session : Session σ} (h : session.phases.tag = none)
    (bodies : List (Body σ)) :
    ((turns bodies).run session).1 = List.replicate bodies.length
        { calls := [], result := .error (.refused (.tagOverflow Tag.last)) } ∧
      ((turns bodies).run session).2.phases = session.phases := by
  induction bodies using List.reverseRecOn with
  | nil => exact ⟨rfl, rfl⟩
  | append_singleton earlier body ih =>
    obtain ⟨hturns, hphases⟩ := ih
    have hspent : ((turns earlier).run session).2.phases.tag = none := by rw [hphases, h]
    rw [run_turns_append, run_turn_of_spent hspent]
    refine ⟨?_, hphases⟩
    simp [hturns, List.replicate_succ']

/-- In a run of phases that may succeed with a handle, succeed without one, or fail, a phase gets
the tag that follows the tags of the phases that succeeded before it, and the latest handle that
one of them left behind. Its body is called once with these, and the phase succeeds if the body
does; when the last tag is behind, the phase is refused and its body not called. A phase that
failed leaves the state as it was. So the tags of the phases that succeeded are consecutive, and
after the last one there is none ever. -/
theorem tags_ascend (base : Tag) (earlier : List (Body σ)) (body : Body σ) (work : σ) :
    let before := (turns earlier).run { phases := start base, work }
    let after := (turn body).run before.2
    let number := base.toNat + successCount before.1
    ∃ left : List (Option OpId),
      (successes before.1).map (·.answer) = left.map .ok ∧
      before.2.phases.count = successCount before.1 ∧
      (number ≤ Tag.last.toNat →
        ∃ tag, tag.toNat = number ∧
          let called := (body tag left.reduceOption.getLast?).run.run before.2.work
          after.1 = ⟨[⟨tag, left.reduceOption.getLast?, called.1⟩], called.1.map fun _ => ()⟩ ∧
          after.2.work = called.2) ∧
      (Tag.last.toNat < number →
        after.1 = ⟨[], .error (.refused (.tagOverflow Tag.last))⟩ ∧
          after.2.work = before.2.work) ∧
      (after.1.result.isOk = false → after.2.phases = before.2.phases) ∧
      (after.1.result.isOk = true →
        after.2.phases.count = before.2.phases.count + 1 ∧
          (number = Tag.last.toNat → ∀ later,
            ((turns later).run after.2).2.phases.tag = none ∧
              ∀ turn ∈ ((turns later).run after.2).1, turn.calls = [])) ∧
      (successes before.1).map (·.tag.toNat) = List.range' base.toNat (successCount before.1) := by
  intro before after number
  obtain ⟨left, h⟩ := exists_accounts base earlier work
  have hnumber : number = base.toNat + left.length := congrArg _ h.number
  have hhandle : before.2.phases.handle = left.reduceOption.getLast? :=
    congrArg Phases.handle h.phases_eq
  refine ⟨left, h.answers, ?_, ?_, ?_, ?_, ?_, ?_⟩
  · rw [h.number]
    exact congrArg Phases.count h.phases_eq
  · intro hle
    cases htag : before.2.phases.tag with
    | none => exact absurd (h.spent_iff.1 htag) (by omega)
    | some tag =>
      have hturn := run_turn_of_tag htag body
      rw [hhandle] at hturn
      exact ⟨tag, by rw [hnumber, h.toNat_tag htag], congrArg Prod.fst hturn,
        congrArg (·.2.work) hturn⟩
  · intro hlt
    have hturn := run_turn_of_spent (h.spent_iff.2 (hnumber ▸ hlt)) body
    exact ⟨congrArg Prod.fst hturn, congrArg (·.2.work) hturn⟩
  · exact phases_of_failed before.2 body
  · intro hok
    obtain ⟨more, hafter⟩ := h.turn body
    have hcount : (left ++ more).length = left.length + 1 := by
      rw [← hafter.number, ← h.number, successCount_append, if_pos hok]
    refine ⟨?_, fun hlast later => ?_⟩
    · calc after.2.phases.count = (left ++ more).length := congrArg Phases.count hafter.phases_eq
        _ = left.length + 1 := hcount
        _ = before.2.phases.count + 1 :=
          congrArg (· + 1) (congrArg Phases.count h.phases_eq).symm
    · have hspent : after.2.phases.tag = none := hafter.spent_iff.2 (by omega)
      obtain ⟨hturns, hphases⟩ := run_turns_of_spent hspent later
      refine ⟨hphases ▸ hspent, fun turn hturn => ?_⟩
      rw [hturns] at hturn
      rw [List.eq_of_mem_replicate hturn]
  · rw [h.tags, h.number]

/-- Two phases before the tags end, one leaves a handle and one fails; the next one has the last tag
and that handle, and the one after it is refused. -/
theorem tags_ascend_last :
    let leaves : Option OpId → Body Unit := fun handle _ _ => return handle
    let fails : Body Unit := fun _ _ => throw (.refused .zeroWindow)
    let first : Session Unit := { phases := start (Tag.last - 1), work := () }
    let early := (turns [leaves (some ⟨0, 3⟩), fails]).run first
    let late := (turns [leaves (some ⟨0, 3⟩), fails, leaves none]).run first
    ((Tag.last - 1).toNat + successCount early.1 ≤ Tag.last.toNat ∧
        ((turn (leaves none)).run early.2).1 = ⟨[⟨Tag.last, some ⟨0, 3⟩, .ok none⟩], .ok ()⟩ ∧
        ((turn (leaves none)).run early.2).2.phases.count = early.2.phases.count + 1 ∧
        ((turns [fails]).run ((turn (leaves none)).run early.2).2).2.phases.tag = none) ∧
      (Tag.last.toNat < (Tag.last - 1).toNat + successCount late.1 ∧
        ((turn (leaves none)).run late.2).1 =
          ⟨[], .error (.refused (.tagOverflow Tag.last))⟩) ∧
      ((turn fails).run early.2).1.result.isOk = false ∧
        ((turn fails).run early.2).2.phases = early.2.phases := by
  intro leaves fails first early late
  have hearly : (Tag.last - 1).toNat + successCount early.1 ≤ Tag.last.toNat := by decide
  have hlate : Tag.last.toNat < (Tag.last - 1).toNat + successCount late.1 := by decide
  obtain ⟨left, hleft, -, hcalled, -, -, hsucceeded, -⟩ :=
    tags_ascend (Tag.last - 1) [leaves (some ⟨0, 3⟩), fails] (leaves none) ()
  obtain ⟨-, -, -, -, hrefused, -⟩ :=
    tags_ascend (Tag.last - 1) [leaves (some ⟨0, 3⟩), fails, leaves none] (leaves none) ()
  obtain ⟨-, -, -, -, -, hfailed, -⟩ :=
    tags_ascend (Tag.last - 1) [leaves (some ⟨0, 3⟩), fails] fails ()
  have hsame : [some ⟨0, 3⟩].map Except.ok = left.map (Except.ok (ε := Failure)) := hleft
  obtain rfl := List.map_injective_iff.2 (fun _ _ => Except.ok.inj) hsame
  obtain ⟨tag, htag, hturn, -⟩ := hcalled hearly
  obtain rfl : tag = Tag.last := UInt32.toNat_inj.1 (htag.trans (by decide))
  obtain ⟨hcount, hspent⟩ := hsucceeded rfl
  exact ⟨⟨hearly, hturn, hcount, (hspent (by decide) [fails]).1⟩, ⟨hlate, (hrefused hlate).1⟩, rfl,
    hfailed rfl⟩

end Phases
end Collectives
