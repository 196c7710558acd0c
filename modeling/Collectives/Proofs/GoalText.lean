import Collectives.Proofs.Calls
import Collectives.Proofs.GoalLines
import Mathlib.Data.List.Infix

/-!
# What the GOAL text of a schedule tells

The text is read line by line, each checked against what was read before it. What comes out is the
schedule without the dependencies between operations of different ranks; the text tells nothing else
and leaves nothing else out. Collectives link operations of one rank only, so what they build is
read back as it is.
-/

namespace Collectives

/-- An operation of `rank` without the dependencies on operations of other ranks. -/
def Op.within (rank : Nat) (op : Op) : Op :=
  { op with requires := op.requires.filter (·.rank = rank) }

/-- The schedule without the dependencies between ranks. -/
def Schedule.withinRanks (s : Schedule) : Schedule :=
  ⟨s.ranks.zipIdx.map fun (ops, rank) => ops.map (·.within rank)⟩

namespace Trace

/-- What has been read of a text: the ranks that are complete, and the operations of the rank that
is open. -/
structure Draft where
  ranks : List (List Op) := []
  current : Option (List Op) := none
  deriving DecidableEq, Repr

namespace Draft

/-- Reads one more line. Ranks and operations have to come in order, and an operation before what is
said about it. -/
def take (draft : Draft) : GoalLine → Option Draft
  | .rankCount _ => none
  | .blank => if draft.current.isNone then some draft else none
  | .openRank rank =>
    if draft.current.isNone ∧ rank = draft.ranks.length then some { draft with current := some [] }
    else none
  | .operation index action => do
    let ops ← draft.current
    if index = ops.length then some { draft with current := some (ops ++ [⟨action, []⟩]) } else none
  | .dependency index dep => do
    let ops ← draft.current
    if index < ops.length then
      let link (op : Op) : Op := { op with requires := op.requires ++ [⟨draft.ranks.length, dep⟩] }
      some { draft with current := some (ops.modify index link) }
    else none
  | .closeRank => do
    let ops ← draft.current
    some { ranks := draft.ranks ++ [ops] }

end Draft

/-- The schedule that lines describe: as many ranks as the first line says, and none left open. -/
def ofLines : List GoalLine → Option Schedule
  | .rankCount count :: lines => do
    let draft ← lines.foldlM Draft.take {}
    if draft.current.isNone ∧ draft.ranks.length = count then some ⟨draft.ranks⟩ else none
  | _ => none

def decode (text : String) : Option Schedule := do
  ofLines (← (GoalLine.split text).mapM GoalLine.read)

theorem decode_goal (s : Schedule) :
    decode (Format.text .goal s) = ofLines (GoalLine.ofSchedule s) := by
  have hread : GoalLine.read ∘ GoalLine.content = pure := funext GoalLine.read_content
  rw [decode, Format.text, Format.pieces, GoalLine.split_join, List.mapM_map, hread,
    List.mapM_pure]
  simp

namespace Draft

/-- The lines of operations add them, without dependencies. -/
theorem take_operations (ranks : List (List Op)) (front ops : List Op) :
    ((ops.zipIdx front.length).map fun (op, index) =>
      GoalLine.operation index op.action).foldlM take ⟨ranks, some front⟩ =
      some ⟨ranks, some (front ++ ops.map fun op => ⟨op.action, []⟩)⟩ := by
  induction ops generalizing front with
  | nil => simp
  | cons op ops ih =>
    have hrest := ih (front ++ [⟨op.action, []⟩])
    rw [List.length_append, List.length_singleton] at hrest
    rw [List.zipIdx_cons, List.map_cons, List.foldlM_cons]
    simp [take, hrest]

/-- The lines of dependencies add them to their operation. -/
theorem take_deps (ranks : List (List Op)) (front rest : List Op) (op : Op) (deps : List OpId)
    (hdeps : ∀ dep ∈ deps, dep.rank = ranks.length) :
    (deps.map fun dep => GoalLine.dependency front.length dep.index).foldlM take
        ⟨ranks, some (front ++ op :: rest)⟩ =
      some ⟨ranks, some (front ++ { op with requires := op.requires ++ deps } :: rest)⟩ := by
  induction deps generalizing op with
  | nil => simp
  | cons dep deps ih =>
    have hdep : (⟨ranks.length, dep.index⟩ : OpId) = dep := by
      rw [← hdeps dep (by simp)]
    rw [List.map_cons, List.foldlM_cons]
    simp [take, modify_middle, hdep, ih _ fun d hd => hdeps d (by simp [hd])]

/-- The lines of the dependencies within a rank complete its operations. -/
theorem take_dependencies (ranks : List (List Op)) (front ops : List Op) :
    ((ops.zipIdx front.length).flatMap fun (op, index) =>
      GoalLine.dependencies ranks.length index op).foldlM take
        ⟨ranks, some (front ++ ops.map fun op => ⟨op.action, []⟩)⟩ =
      some ⟨ranks, some (front ++ ops.map (·.within ranks.length))⟩ := by
  induction ops generalizing front with
  | nil => simp
  | cons op ops ih =>
    have hdeps : ∀ dep ∈ op.requires.filter (·.rank = ranks.length), dep.rank = ranks.length := by
      simp
    have hop : (GoalLine.dependencies ranks.length front.length op).foldlM take _ = _ :=
      take_deps ranks front (ops.map fun op => ⟨op.action, []⟩) ⟨op.action, []⟩ _ hdeps
    have hrest := ih (front ++ [op.within ranks.length])
    rw [List.length_append, List.length_singleton, List.append_assoc, List.append_assoc] at hrest
    rw [List.zipIdx_cons, List.flatMap_cons, List.foldlM_append, List.map_cons, hop]
    exact hrest

/-- A block adds a rank. -/
theorem take_block (ranks : List (List Op)) (ops : List Op) :
    (GoalLine.block ranks.length ops).foldlM take ⟨ranks, none⟩ =
      some ⟨ranks ++ [ops.map (·.within ranks.length)], none⟩ := by
  have hops := take_operations ranks [] ops
  have hdeps := take_dependencies ranks [] ops
  simp only [List.length_nil, List.nil_append] at hops hdeps
  simp [GoalLine.block, List.foldlM_append, take, hops, hdeps]

theorem take_blocks (front ranks : List (List Op)) :
    ((ranks.zipIdx front.length).flatMap fun (ops, rank) => GoalLine.block rank ops).foldlM take
        ⟨front, none⟩ =
      some ⟨front ++ (ranks.zipIdx front.length).map fun (ops, rank) => ops.map (·.within rank),
        none⟩ := by
  induction ranks generalizing front with
  | nil => simp
  | cons ops ranks ih =>
    have hrest := ih (front ++ [ops.map (·.within front.length)])
    rw [List.length_append, List.length_singleton, List.append_assoc] at hrest
    rw [List.zipIdx_cons, List.flatMap_cons, List.foldlM_append, take_block]
    exact hrest

end Draft

/-- The text of a schedule is read as the schedule without the dependencies between ranks. -/
theorem decode_text (s : Schedule) : decode (Format.text .goal s) = some s.withinRanks := by
  have hblocks := Draft.take_blocks [] s.ranks
  rw [List.length_nil, List.nil_append] at hblocks
  rw [decode_goal, GoalLine.ofSchedule, ofLines, hblocks]
  simp [Schedule.withinRanks, Schedule.rankCount]

theorem block_within (rank : Nat) (ops : List Op) :
    GoalLine.block rank (ops.map (·.within rank)) = GoalLine.block rank ops := by
  simp [GoalLine.block, GoalLine.dependencies, Op.within, List.zipIdx_map, Function.comp_def,
    List.flatMap_map]

theorem zipIdx_map_zipIdx {α β : Type} (f : α × Nat → β) (xs : List α) (start : Nat) :
    ((xs.zipIdx start).map f).zipIdx start = (xs.zipIdx start).map fun x => (f x, x.2) := by
  induction xs generalizing start with
  | nil => rfl
  | cons x xs ih => simp [List.zipIdx_cons, ih]

/-- The dependencies between ranks make no difference to the text. -/
theorem text_withinRanks (s : Schedule) :
    Format.text .goal s.withinRanks = Format.text .goal s := by
  have hlines : GoalLine.ofSchedule s.withinRanks = GoalLine.ofSchedule s := by
    simp [GoalLine.ofSchedule, Schedule.withinRanks, Schedule.rankCount, zipIdx_map_zipIdx,
      List.flatMap_map, block_within]
  simp only [Format.text, Format.pieces, hlines]

/-- Two schedules have the same text just if they differ in dependencies between ranks only. -/
theorem text_eq_iff (s t : Schedule) :
    Format.text .goal s = Format.text .goal t ↔ s.withinRanks = t.withinRanks := by
  constructor
  · intro htext
    have hdecoded := congrArg decode htext
    rwa [decode_text, decode_text, Option.some.injEq] at hdecoded
  · intro hwithin
    rw [← text_withinRanks s, hwithin, text_withinRanks t]

/-- How many lines of a text have `word` in them. -/
def linesWith (word text : String) : Nat :=
  (GoalLine.split text).countP (word.toList <:+: ·)

theorem countP_block (rank : Nat) (ops : List Op) :
    (GoalLine.block rank ops).countP GoalLine.isDependency =
      (ops.map fun op => (op.within rank).requires.length).sum := by
  have hdeps : ∀ x : Op × Nat,
      (GoalLine.dependencies rank x.2 x.1).countP GoalLine.isDependency =
        (x.1.within rank).requires.length := by
    intro x
    simp [GoalLine.dependencies, Op.within, List.countP_map, Function.comp_def,
      GoalLine.isDependency]
  conv_rhs => rw [← List.zipIdx_map_fst 0 ops, List.map_map]
  simp [GoalLine.block, List.countP_append, List.countP_map, List.countP_flatMap,
    Function.comp_def, GoalLine.isDependency, hdeps]

/-- The dependencies within ranks have a line each. -/
theorem linesWith_requires (s : Schedule) :
    linesWith "requires" (Format.text .goal s) = s.withinRanks.edgeCount := by
  have hlines : (fun cs : List Char => decide ("requires".toList <:+: cs)) ∘ GoalLine.content =
      GoalLine.isDependency := by
    funext line
    rw [Function.comp_apply, Bool.eq_iff_iff, decide_eq_true_iff, line.requires_infix_iff]
  rw [linesWith, Format.text, Format.pieces, GoalLine.split_join, List.countP_map, hlines,
    GoalLine.ofSchedule, List.countP_cons_of_neg (by simp [GoalLine.isDependency]),
    List.countP_flatMap, Schedule.edgeCount_eq_sum]
  simp [Schedule.withinRanks, Function.comp_def, countP_block]

end Trace

namespace Schedule

/-- Whether operations wait only for operations of their own rank. -/
def RankLocal (s : Schedule) : Prop :=
  ∀ rank, ∀ op ∈ s.opsAt rank, ∀ dep ∈ op.requires, dep.rank = rank

theorem rankLocal_idle (count : Nat) : (idle count).RankLocal := by
  intro rank op hop
  rw [opsAt_idle] at hop
  cases hop

theorem RankLocal.withinRanks_eq {s : Schedule} (h : s.RankLocal) : s.withinRanks = s := by
  have hops : ∀ x ∈ s.ranks.zipIdx, x.1.map (·.within x.2) = x.1 := by
    rintro ⟨ops, rank⟩ hmem
    have hget : s.opsAt rank = ops := by
      rw [opsAt, List.getD_eq_getElem?_getD, List.mem_zipIdx_iff_getElem?.1 hmem, Option.getD_some]
    conv_rhs => rw [← List.map_id ops]
    apply List.map_congr_left
    intro op hop
    rw [← hget] at hop
    have hkept : op.requires.filter (·.rank = rank) = op.requires :=
      List.filter_eq_self.2 fun dep hdep => decide_eq_true (h rank op hop dep hdep)
    simp only [Op.within, hkept, id_eq]
  rw [withinRanks, List.map_congr_left hops, List.zipIdx_map_fst]

theorem RankLocal.grow {s : Schedule} (h : s.RankLocal) {owner : Nat} {ops : List Op}
    (howner : owner < s.rankCount) (hops : ∀ op ∈ ops, ∀ dep ∈ op.requires, dep.rank = owner) :
    (s.grow owner ops).RankLocal := by
  intro rank op hop
  by_cases hrank : rank = owner
  · subst hrank
    rw [opsAt_grow_self howner, List.mem_append] at hop
    exact hop.elim (h rank op) (hops op)
  · rw [opsAt_grow_of_ne s hrank] at hop
    exact h rank op hop

theorem RankLocal.host {s : Schedule} (h : s.RankLocal) {c : Communicator}
    {plans : Nat → RankPlan} {level : Nat → Nat → Nat}
    (hc : RankPlan.Coherent c.size plans level) (hinside : c.Inside s) {rank : Nat}
    (hrank : rank < c.size) : (s.host c plans rank).RankLocal := by
  apply h.grow (hinside _ (c.member_mem hrank))
  intro op hop dep hdep
  obtain ⟨planned, hplanned, rfl⟩ := List.mem_map.1 hop
  obtain ⟨position, hposition⟩ := List.mem_iff_getElem?.1 hplanned
  obtain ⟨wait, hwait, rfl⟩ := Planned.mem_requires_place.1 hdep
  obtain ⟨earlier, -, rfl, -⟩ := hc.rising rank hrank position planned hposition wait hwait
  rfl

/-- Plans that wait for their own operations only are placed rank by rank without a dependency on
another rank, also where a rank has more than one plan. -/
theorem RankLocal.placed {s : Schedule} (h : s.RankLocal) {c : Communicator}
    {plans : Nat → RankPlan} {level : Nat → Nat → Nat}
    (hc : RankPlan.Coherent c.size plans level) (hinside : c.Inside s) :
    (s.placed c plans).RankLocal := by
  have hranks : ∀ ranks : List Nat, (∀ rank ∈ ranks, rank < c.size) → ∀ s : Schedule,
      s.RankLocal → c.Inside s → (ranks.foldl (Schedule.host · c plans) s).RankLocal := by
    intro ranks hbelow
    induction ranks with
    | nil => exact fun s h _ => h
    | cons rank ranks ih =>
      intro s h hinside
      exact ih (fun r hr => hbelow r (by simp [hr])) _ (h.host hc hinside (hbelow rank (by simp)))
        (hinside.grow _ _)
  exact hranks _ (fun rank hrank => List.mem_range.1 hrank) s h hinside

end Schedule

/-- A collective on ranks below `count`, some of them perhaps several times. -/
structure Job (count : Nat) where
  on : Communicator
  builder : Builder
  below : ∀ rank ∈ on.members, rank < count

namespace Job

variable {count : Nat}

/-- What a job makes of a schedule, whether it succeeds or not. -/
def perform (job : Job count) (s : Schedule) : Schedule :=
  ((Build.run job.on job.builder.pattern).runOn s).2

/-- A job places the plans of its collective or does nothing. Either way the ranks stay, and so does
it that operations wait for none of other ranks. -/
theorem rankLocal_perform (job : Job count) {s : Schedule} (hs : s.rankCount = count)
    (h : s.RankLocal) : (job.perform s).rankCount = count ∧ (job.perform s).RankLocal := by
  have hinside : job.on.Inside s := fun owner howner => by
    rw [hs]
    exact job.below owner howner
  rw [perform, job.builder.coherent.runOn_run hinside, Pattern.outcome]
  cases hplans : job.builder.pattern job.on.size with
  | ok plans =>
    obtain ⟨level, hc⟩ := job.builder.coherent job.on.size plans hplans
    exact ⟨(s.rankCount_placed job.on plans).trans hs, h.placed hc hinside⟩
  | error error => exact ⟨hs, h⟩

end Job

namespace Schedule

variable {count : Nat}

/-- The schedule that jobs make of an idle one. -/
def ofJobs (jobs : List (Job count)) : Schedule :=
  jobs.foldl (fun s job => job.perform s) (idle count)

theorem rankLocal_ofJobs (jobs : List (Job count)) : (ofJobs jobs).RankLocal := by
  have hjobs : ∀ s : Schedule, s.rankCount = count → s.RankLocal →
      (jobs.foldl (fun s job => job.perform s) s).RankLocal := by
    induction jobs with
    | nil => exact fun s _ h => h
    | cons job jobs ih =>
      intro s hs h
      obtain ⟨hcount, hlocal⟩ := job.rankLocal_perform hs h
      exact ih _ hcount hlocal
  exact hjobs _ (by simp [idle, rankCount]) (rankLocal_idle count)

end Schedule

namespace Trace

/-- The text of any schedule tells its operations and the dependencies within ranks, all in order,
and nothing else. Collectives on whatever ranks of a schedule link no operations of different ranks,
so their text has a line for every dependency and tells the whole schedule. -/
theorem goal_text_tells :
    (∀ s : Schedule, decode (Format.text .goal s) = some s.withinRanks) ∧
      (∀ s t : Schedule,
        Format.text .goal s = Format.text .goal t ↔ s.withinRanks = t.withinRanks) ∧
      ∀ (count : Nat) (jobs : List (Job count)),
        (Schedule.ofJobs jobs).RankLocal ∧
          linesWith "requires" (Format.text .goal (.ofJobs jobs)) =
            (Schedule.ofJobs jobs).edgeCount ∧
          decode (Format.text .goal (.ofJobs jobs)) = some (.ofJobs jobs) := by
  refine ⟨decode_text, text_eq_iff, fun count jobs => ?_⟩
  have hlocal := Schedule.rankLocal_ofJobs jobs
  refine ⟨hlocal, ?_, ?_⟩
  · rw [linesWith_requires, hlocal.withinRanks_eq]
  · rw [decode_text, hlocal.withinRanks_eq]

/-- A dependency on another rank is lost. An all-to-all of three, two of them the same rank, has all
its twelve dependencies in the text. -/
theorem goal_text_tells_twelve :
    let linked : Schedule := ⟨[[⟨.send 1 8 3, []⟩], [⟨.recv 0 8 3, [⟨0, 0⟩, ⟨1, 0⟩]⟩]]⟩
    let job : Job 2 := ⟨⟨[1, 0, 1]⟩, .windowed ⟨8, 3, 1⟩, by decide⟩
    decode (Format.text .goal linked) =
        some ⟨[[⟨.send 1 8 3, []⟩], [⟨.recv 0 8 3, [⟨1, 0⟩]⟩]]⟩ ∧
      linesWith "requires" (Format.text .goal (.ofJobs [job])) = 12 := by
  intro linked job
  obtain ⟨hdecode, -, hjobs⟩ := goal_text_tells
  have hedges : (Schedule.ofJobs [job]).edgeCount = 12 := by decide +kernel
  exact ⟨hdecode linked, (hjobs 2 [job]).2.1.trans hedges⟩

end Trace
end Collectives
