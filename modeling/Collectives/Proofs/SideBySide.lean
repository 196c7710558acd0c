import Collectives.Groups
import Collectives.Proofs.Blocks
import Collectives.Proofs.CompleteExchange
import Collectives.Proofs.Draws
import Collectives.Proofs.Relocation

/-!
# Collectives side by side

The groups of a grouped collective are blocks of ranks, worked on one after another. Each finds its
block idle and leaves there what the single collective is, moved to the first rank of the block, so
the schedule consists of copies and nothing crosses the border of a group.
-/

namespace Collectives

/-- The name of the same operation `offset` ranks further on. -/
def OpId.shift (offset : Nat) (id : OpId) : OpId := ⟨offset + id.rank, id.index⟩

/-- The same operation `offset` ranks further on: its peer and what it waits for are there too. -/
def Op.shift (offset : Nat) (op : Op) : Op :=
  ⟨op.action.mapPeer (offset + ·), op.requires.map (·.shift offset)⟩

namespace Schedule

/-- A schedule of `count` blocks of `size` ranks. The first `done` blocks hold a part each, moved to
the first rank of the block; the others are idle. -/
def filled (count size : Nat) (parts : Nat → Schedule) (done : Nat) : Schedule :=
  ⟨(List.range (count * size)).map fun owner =>
    if owner / size < done then
      ((parts (owner / size)).opsAt (owner % size)).map (·.shift (owner / size * size))
    else []⟩

variable {count size index rank done : Nat} {parts : Nat → Schedule}

@[simp] theorem rankCount_filled (count size : Nat) (parts : Nat → Schedule) (done : Nat) :
    (filled count size parts done).rankCount = count * size := by
  simp [filled, rankCount]

theorem opsAt_filled (hsize : 0 < size) (hdone : done ≤ count) (owner : Nat) :
    (filled count size parts done).opsAt owner =
      if owner / size < done then
        ((parts (owner / size)).opsAt (owner % size)).map (·.shift (owner / size * size))
      else [] := by
  by_cases hbelow : owner < count * size
  · simp [filled, opsAt, List.getD_eq_getElem?_getD, hbelow]
  · have hout : ¬owner / size < done := fun h =>
      hbelow ((Nat.div_lt_iff_lt_mul hsize).1 (h.trans_le hdone))
    rw [opsAt_of_rankCount_le (by simpa using hbelow), if_neg hout]

theorem opsAt_filled_block (hdone : done ≤ count) (hrank : rank < size) :
    (filled count size parts done).opsAt (index * size + rank) =
      if index < done then ((parts index).opsAt rank).map (·.shift (index * size)) else [] := by
  rw [opsAt_filled (Nat.zero_lt_of_lt hrank) hdone, Communicator.div_block hrank,
    Communicator.mod_block hrank]

theorem inside_filled (hindex : index < count) (parts : Nat → Schedule) (done : Nat) :
    (Communicator.block size index).Inside (filled count size parts done) := by
  intro owner howner
  rw [rankCount_filled]
  exact Communicator.lt_of_mem_block hindex howner

theorem filled_zero (count size : Nat) (parts : Nat → Schedule) :
    filled count size parts 0 = idle (count * size) := by
  simp [filled, idle]

/-- Operations of coherent plans stay within their world, and wait within their rank. -/
theorem within_onWorld {plans : Nat → RankPlan} {level : Nat → Nat → Nat}
    (hc : RankPlan.Coherent size plans level) (hrank : rank < size) :
    ∀ op ∈ (onWorld size plans).opsAt rank,
      (∀ peer, op.action.peer? = some peer → peer < size) ∧
        ∀ dep ∈ op.requires, dep.rank = rank := by
  intro op hop
  rw [opsAt_onWorld plans hrank, RankPlan.opsOn] at hop
  obtain ⟨planned, hmem, rfl⟩ := List.mem_map.1 hop
  have hpeers := fun peer hpeer => (hc.peers rank hrank planned hmem peer hpeer).1
  refine ⟨?_, fun dep hdep => ?_⟩
  · rwa [Planned.action_place, mapPeer_world hpeers]
  · obtain ⟨position, hget⟩ := List.mem_iff_getElem?.1 hmem
    obtain ⟨wait, hwait, rfl⟩ := Planned.mem_requires_place.1 hdep
    obtain ⟨earlier, -, rfl, -⟩ := hc.rising rank hrank position planned hget wait hwait
    rfl

end Schedule

theorem Action.mapPeer_congr {action : Action} {f g : Nat → Nat}
    (h : ∀ peer, action.peer? = some peer → f peer = g peer) :
    action.mapPeer f = action.mapPeer g := by
  rcases action with ⟨peer, size, tag⟩ | ⟨peer, size, tag⟩ | cost
  · rw [mapPeer, mapPeer, h peer rfl]
  · rw [mapPeer, mapPeer, h peer rfl]
  · rfl

/-- On an idle block operations are relocated by moving them. -/
theorem Op.relocate_block {size index : Nat} {s : Schedule} {op : Op}
    (hidle : ∀ rank < size, s.opsAt (index * size + rank) = [])
    (hpeer : ∀ peer, op.action.peer? = some peer → peer < size)
    (hrequires : ∀ dep ∈ op.requires, dep.rank < size) :
    op.relocate (.block size index) s = op.shift (index * size) := by
  rw [relocate, shift]
  congr 1
  · exact Action.mapPeer_congr fun peer h => Communicator.member_block (hpeer peer h)
  · apply List.map_congr_left
    intro dep hdep
    have hrank := hrequires dep hdep
    rw [OpId.relocate, OpId.shift, Communicator.member_block hrank, hidle _ hrank, List.length_nil,
      Nat.add_zero]

/-- Moved to the first rank of its block, an operation stays in the block. -/
theorem Op.div_shift {size index rank : Nat} {op : Op}
    (hpeer : ∀ peer, op.action.peer? = some peer → peer < size)
    (hrequires : ∀ dep ∈ op.requires, dep.rank = rank) (hrank : rank < size) :
    (∀ peer, (op.shift (index * size)).action.peer? = some peer → peer / size = index) ∧
      ∀ dep ∈ (op.shift (index * size)).requires, dep.rank / size = index := by
  constructor
  · intro peer h
    rw [shift, Action.peer?_mapPeer] at h
    obtain ⟨localPeer, hlocal, rfl⟩ := Option.map_eq_some_iff.1 h
    exact Communicator.div_block (hpeer localPeer hlocal)
  · intro dep h
    obtain ⟨localDep, hlocal, rfl⟩ := List.mem_map.1 h
    exact Communicator.div_block ((hrequires localDep hlocal).trans_lt hrank)

namespace Schedule

variable {count size index rank done : Nat} {parts : Nat → Schedule}

/-- No operation of filled blocks has a peer or a dependency in another block. -/
theorem div_of_op?_filled {plansOf : Nat → Nat → RankPlan} (hsize : 0 < size)
    (hc : ∀ index < count, ∃ level, RankPlan.Coherent size (plansOf index) level) {id : OpId}
    {op : Op}
    (hop : (filled count size (fun index => .onWorld size (plansOf index)) count).op? id =
      some op) :
    (∀ peer, op.action.peer? = some peer → peer / size = id.rank / size) ∧
      ∀ dep ∈ op.requires, dep.rank / size = id.rank / size := by
  have hmem := List.mem_of_getElem? ((op?_eq _ id).symm.trans hop)
  rw [opsAt_filled hsize (Nat.le_refl count)] at hmem
  by_cases hindex : id.rank / size < count
  · rw [if_pos hindex] at hmem
    obtain ⟨one, hone, rfl⟩ := List.mem_map.1 hmem
    obtain ⟨level, hcoherent⟩ := hc _ hindex
    have hrank := Nat.mod_lt id.rank hsize
    obtain ⟨hpeer, hrequires⟩ := within_onWorld hcoherent hrank one hone
    exact Op.div_shift hpeer hrequires hrank
  · rw [if_neg hindex] at hmem
    cases hmem

/-- Placing a part on the next block fills this block. -/
theorem placed_block {plans : Nat → RankPlan} {level : Nat → Nat → Nat} (hindex : index < count)
    (hsize : 0 < size) (hc : RankPlan.Coherent size plans level)
    (hpart : parts index = .onWorld size plans) :
    (filled count size parts index).placed (.block size index) plans =
      filled count size parts (index + 1) := by
  have hidle : ∀ rank < size,
      (filled count size parts index).opsAt (index * size + rank) = [] := by
    intro rank hrank
    rw [opsAt_filled_block hindex.le hrank, if_neg (Nat.lt_irrefl index)]
  have hhosts := hosts_placed (c := .block size index) (by simpa using hc)
    (Communicator.nodup_block size index) (inside_filled hindex parts index)
  rw [Communicator.size_block] at hhosts
  apply ext_opsAt (by simp)
  intro owner
  by_cases howner : owner ∈ (Communicator.block size index).members
  · obtain ⟨rank, hrank, rfl⟩ := List.mem_map.1 howner
    rw [List.mem_range] at hrank
    have hmember := hhosts.member rank (by simpa using hrank)
    rw [Communicator.member_block hrank, hidle rank hrank, List.nil_append] at hmember
    rw [hmember, opsAt_filled_block hindex hrank, if_pos (Nat.lt_succ_self index), hpart]
    apply List.map_congr_left
    intro op hop
    obtain ⟨hpeer, hrequires⟩ := within_onWorld hc hrank op hop
    exact Op.relocate_block hidle hpeer fun dep hdep => (hrequires dep hdep).trans_lt hrank
  · rw [hhosts.other owner howner]
    rw [Communicator.mem_block hsize] at howner
    have hsame : owner / size < index ↔ owner / size < index + 1 := by omega
    rw [opsAt_filled hsize hindex.le, opsAt_filled hsize hindex]
    simp only [hsame]

end Schedule

namespace Groups

variable {count size : Nat} {pattern : Nat → Pattern} {parts : Nat → Schedule}

/-- A block after another is filled, from the one with the number `first` to the last. -/
theorem run_blocks (hsize : 0 < size) (hcoherent : ∀ index, (pattern index).Coherent)
    (hparts : ∀ index < count, (pattern index).schedule size = .ok (parts index)) {first rest : Nat}
    (hcount : first + rest = count) :
    run (fun index group => Build.run group (pattern index)) first
        ((List.range' first rest).map (.block size)) (.filled count size parts first) =
      ⟨List.replicate rest (), none, .filled count size parts count⟩ := by
  induction rest generalizing first with
  | zero =>
    obtain rfl : first = count := hcount
    rfl
  | succ rest ih =>
    have hfirst : first < count := by omega
    obtain ⟨-, plans, hplans, hpart⟩ :=
      Pattern.exists_plans (hcoherent first size) (hparts first hfirst)
    obtain ⟨level, hc⟩ := hcoherent first size plans hplans
    have hrun := (hcoherent first).runOn_run
      (@Schedule.inside_filled count size first hfirst parts first)
    rw [Pattern.outcome, Communicator.size_block, hplans] at hrun
    dsimp only at hrun
    rw [Schedule.placed_block hfirst hsize hc hpart] at hrun
    rw [List.range'_succ, List.map_cons, run, hrun]
    simp only [ih (show first + 1 + rest = count by omega)]
    rfl

/-- If no pattern is refused, the blocks hold their schedules. -/
theorem schedule_eq_ok (hcount : 0 < count) (hsize : 0 < size)
    (hcoherent : ∀ index, (pattern index).Coherent)
    (hparts : ∀ index < count, (pattern index).schedule size = .ok (parts index)) :
    schedule count size pattern = .ok (.filled count size parts count) := by
  have hrun := run_blocks hsize hcoherent hparts (Nat.zero_add count)
  rw [Schedule.filled_zero, ← List.range_eq_range'] at hrun
  rw [schedule, onBlocks, Partition.blocks_eq hcount hsize]
  simp only [bind, Except.bind, pure, Except.pure, List.length_map, List.length_range, hrun]

/-- If the first pattern is refused, so is the whole. -/
theorem schedule_eq_error (hcount : 0 < count) (hsize : 0 < size) {error : Error}
    (hrefused : pattern 0 size = .error error) :
    schedule count size pattern = .error (.refused error) := by
  obtain ⟨rest, rfl⟩ := Nat.exists_eq_succ_of_ne_zero hcount.ne'
  have hrun : ∀ s, (Build.run (.block size 0) (pattern 0)).runOn s =
      (.error (.refused error), s) := by
    intro s
    simp [Build.run, Build.runOn_bind, hrefused]
  rw [schedule, onBlocks, Partition.blocks_eq hcount hsize]
  simp [List.range_succ_eq_map, run, hrun, bind, Except.bind, pure, Except.pure]

/-- The outcome `grouped` of a grouped collective consists of copies of the single ones: it fails
just as each of them, and otherwise block `index` is `single index`, moved to its first rank. No
peer and no dependency lies in another block. -/
structure Copies (count size : Nat) (single : Nat → Except Failure Schedule)
    (grouped : Except Failure Schedule) : Prop where
  fails : ∀ index < count, ∀ failure, grouped = .error failure ↔ single index = .error failure
  rankCount_eq : ∀ s, grouped = .ok s → s.rankCount = count * size
  ops : ∀ s, grouped = .ok s → ∀ index < count, ∃ one, single index = .ok one ∧ ∀ rank < size,
    s.opsAt (index * size + rank) = (one.opsAt rank).map (·.shift (index * size))
  borders : ∀ s, grouped = .ok s → ∀ id op, s.op? id = some op →
    (∀ peer, op.action.peer? = some peer → peer / size = id.rank / size) ∧
      ∀ dep ∈ op.requires, dep.rank / size = id.rank / size

theorem Copies.congr {single other : Nat → Except Failure Schedule}
    {grouped : Except Failure Schedule} (h : Copies count size single grouped)
    (hsame : ∀ index < count, single index = other index) : Copies count size other grouped where
  fails := fun index hindex => hsame index hindex ▸ h.fails index hindex
  rankCount_eq := h.rankCount_eq
  ops := fun s hs index hindex => hsame index hindex ▸ h.ops s hs index hindex
  borders := h.borders

theorem Copies.exists_ok {single : Nat → Except Failure Schedule}
    {grouped : Except Failure Schedule} (h : Copies count size single grouped) (hcount : 0 < count)
    {one : Schedule} (hone : single 0 = .ok one) : ∃ s, grouped = .ok s := by
  cases grouped with
  | ok s => exact ⟨s, rfl⟩
  | error failure => cases hone.symm.trans ((h.fails 0 hcount failure).1 rfl)

theorem copies_of_refused (hcount : 0 < count) (hsize : 0 < size) {error : Error}
    (hrefused : ∀ index < count, pattern index size = .error error) :
    Copies count size (fun index => (pattern index).schedule size)
      (schedule count size pattern) := by
  rw [schedule_eq_error hcount hsize (hrefused 0 hcount)]
  refine ⟨fun index hindex failure => ?_, nofun, nofun, nofun⟩
  rw [Pattern.schedule_eq_error hsize (hrefused index hindex)]

theorem copies_of_plans (hcount : 0 < count) (hsize : 0 < size)
    (hcoherent : ∀ index, (pattern index).Coherent) {plansOf : Nat → Nat → RankPlan}
    (hplans : ∀ index < count, pattern index size = .ok (plansOf index)) :
    Copies count size (fun index => (pattern index).schedule size)
      (schedule count size pattern) := by
  have hc := fun index hindex => hcoherent index size _ (hplans index hindex)
  have hparts : ∀ index < count,
      (pattern index).schedule size = .ok (.onWorld size (plansOf index)) := by
    intro index hindex
    obtain ⟨level, hlevel⟩ := hc index hindex
    exact Pattern.schedule_eq hsize (hplans index hindex) hlevel
  rw [schedule_eq_ok hcount hsize hcoherent hparts]
  refine ⟨fun index hindex failure => ?_, ?_, ?_, ?_⟩
  · rw [hparts index hindex]
    exact ⟨nofun, nofun⟩
  · rintro _ ⟨⟩
    exact Schedule.rankCount_filled ..
  · rintro _ ⟨⟩ index hindex
    refine ⟨_, hparts index hindex, fun rank hrank => ?_⟩
    rw [Schedule.opsAt_filled_block (Nat.le_refl count) hrank, if_pos hindex]
  · rintro _ ⟨⟩ id op hop
    exact Schedule.div_of_op?_filled hsize hc hop

/-- Side by side, coherent patterns that are refused alike or not at all come out as copies. -/
theorem copies_of_coherent (hcount : 0 < count) (hsize : 0 < size)
    (hcoherent : ∀ index, (pattern index).Coherent)
    (halike : ∀ index < count, ∀ error,
      pattern index size = .error error ↔ pattern 0 size = .error error) :
    Copies count size (fun index => (pattern index).schedule size)
      (schedule count size pattern) := by
  cases hfirst : pattern 0 size with
  | error error =>
    exact copies_of_refused hcount hsize fun index hindex => (halike index hindex error).2 hfirst
  | ok plans =>
    have hplans : ∀ index, ∃ plans, index < count → pattern index size = .ok plans := by
      intro index
      cases hpattern : pattern index size with
      | ok plans => exact ⟨plans, fun _ => rfl⟩
      | error error =>
        refine ⟨plans, fun hindex => ?_⟩
        cases hfirst.symm.trans ((halike index hindex error).1 hpattern)
    choose plansOf hplansOf using hplans
    exact copies_of_plans hcount hsize hcoherent hplansOf

/-- Consecutive blocks put a rank into the group of its quotient by their size, under its remainder.
A grouped allreduce consists of copies of the single one, and a grouped all-to-all of copies of the
single all-to-all with the sizes that are drawn for the group, behind those of the groups before. -/
theorem grouped_copies {count size : Nat} (hcount : 0 < count) (hsize : 0 < size) :
    Partition.blocks count size = .ok {
      groups := (List.range count).map (.block size)
      placement := (List.range (count * size)).map fun rank => ⟨rank / size, rank % size⟩ } ∧
    (∀ (algorithm : Allreduce.Algorithm) (r : Reduction),
      Copies count size (fun _ => (Allreduce.pattern algorithm r).schedule size)
        (allreduce algorithm count size r)) ∧
    ∀ (algorithm : Alltoall.Algorithm) (request : Alltoall.Request) (words : Random.Words),
      let draw := Alltoall.drawSizes algorithm request words size
      Copies count size
        (fun index => (Alltoall.pattern algorithm request
          (draw.run (draw.startOf 0 index)).1).schedule size)
        (alltoall algorithm count size request words) := by
  refine ⟨Partition.blocks_eq hcount hsize, ?_, ?_⟩
  · intro algorithm r
    exact copies_of_coherent hcount hsize (fun _ => Builder.coherent_allreduce algorithm r)
      fun _ _ _ => Iff.rfl
  · intro algorithm request words draw
    have hsizes : ∀ index < count,
        (((List.replicate count ()).mapM fun _ => draw).run 0).1.getD index [] =
          (draw.run (draw.startOf 0 index)).1 := by
      intro index hindex
      simp [Random.Draw.run_replicate, List.getD_eq_getElem?_getD, hindex]
    refine (copies_of_coherent hcount hsize
      (fun index => Builder.coherent_alltoall algorithm request _) ?_).congr ?_
    · intro index hindex error
      rw [hsizes index hindex, hsizes 0 hcount, Alltoall.pattern_drawn_eq_error,
        Alltoall.pattern_drawn_eq_error]
    · intro index hindex
      rw [hsizes index hindex]

/-- Three rings of two ranks, of which the second ring is seen at its last rank; recursive doubling
on groups of six ranks; and an all-to-all in two pairs of ranks, of which the second draws sizes
that the first does not. -/
theorem grouped_copies_three :
    let r : Reduction := ⟨100, 0, 0⟩
    let request : Alltoall.Request := ⟨64, 0, 1⟩
    let words := Random.Words.cycle [0, 0, 0, 0, 0, 0x8000000000000000]
    (0 < 3 ∧ 0 < 2) ∧
    (∃ s, allreduce .ring 3 2 r = .ok s ∧
      s.opsAt 3 = [⟨.send 2 50 0, []⟩, ⟨.recv 2 50 0, []⟩,
        ⟨.send 2 50 1, [⟨3, 1⟩]⟩, ⟨.recv 2 50 1, [⟨3, 1⟩]⟩]) ∧
    allreduce .recursiveDoubling 2 6 r = .error (.refused (.notPowerOfTwo 6)) ∧
    ∃ s, alltoall .unbalanced 2 2 request words = .ok s ∧
      s.opsAt 1 = [⟨.send 0 58 0, []⟩, ⟨.recv 0 58 0, []⟩] ∧
      s.opsAt 3 = [⟨.send 2 58 0, []⟩, ⟨.recv 2 64 0, []⟩] := by
  intro r request words
  let draw := Alltoall.drawSizes .unbalanced request words 2
  have hrings := (@grouped_copies 3 2 (by decide) (by decide)).2.1 .ring r
  have hsixes := (@grouped_copies 2 6 (by decide) (by decide)).2.1 .recursiveDoubling r
  have hpairs := (@grouped_copies 2 2 (by decide) (by decide)).2.2 .unbalanced request words
  have hring : (Allreduce.pattern .ring r).schedule 2 = .ok ⟨[
      [⟨.send 1 50 0, []⟩, ⟨.recv 1 50 0, []⟩,
        ⟨.send 1 50 1, [⟨0, 1⟩]⟩, ⟨.recv 1 50 1, [⟨0, 1⟩]⟩],
      [⟨.send 0 50 0, []⟩, ⟨.recv 0 50 0, []⟩,
        ⟨.send 0 50 1, [⟨1, 1⟩]⟩, ⟨.recv 0 50 1, [⟨1, 1⟩]⟩]]⟩ := by decide
  have hdrawn : (draw.run (draw.startOf 0 0)).1 = [[58, 58], [58, 58]] ∧
      (draw.run (draw.startOf 0 1)).1 = [[58, 64], [58, 58]] := by decide
  have hfirst :
      (Alltoall.pattern .unbalanced request (draw.run (draw.startOf 0 0)).1).schedule 2 = .ok ⟨[
        [⟨.send 1 58 0, []⟩, ⟨.recv 1 58 0, []⟩],
        [⟨.send 0 58 0, []⟩, ⟨.recv 0 58 0, []⟩]]⟩ := by
    rw [hdrawn.1]
    decide
  have hsecond :
      (Alltoall.pattern .unbalanced request (draw.run (draw.startOf 0 1)).1).schedule 2 = .ok ⟨[
        [⟨.send 1 64 0, []⟩, ⟨.recv 1 58 0, []⟩],
        [⟨.send 0 58 0, []⟩, ⟨.recv 0 64 0, []⟩]]⟩ := by
    rw [hdrawn.2]
    decide
  obtain ⟨s, hs⟩ := hrings.exists_ok (by decide) hring
  obtain ⟨ring, hring', hringOps⟩ := hrings.ops s hs 1 (by decide)
  cases hring.symm.trans hring'
  obtain ⟨made, hmade⟩ := hpairs.exists_ok (by decide) hfirst
  obtain ⟨first, hfirst', hfirstOps⟩ := hpairs.ops made hmade 0 (by decide)
  obtain ⟨second, hsecond', hsecondOps⟩ := hpairs.ops made hmade 1 (by decide)
  cases hfirst.symm.trans hfirst'
  cases hsecond.symm.trans hsecond'
  exact ⟨⟨by decide, by decide⟩, ⟨s, hs, hringOps 1 (by decide)⟩,
    (hsixes.fails 0 (by decide) _).2 (by decide),
    made, hmade, hfirstOps 1 (by decide), hsecondOps 1 (by decide)⟩

end Groups
end Collectives
