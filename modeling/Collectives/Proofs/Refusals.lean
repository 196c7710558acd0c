import Collectives.Proofs.Draws
import Collectives.Proofs.Relocation
import Collectives.Proofs.TreeLoops

/-!
# Refusals

A collective is refused for reasons that are known before anything is created: recursive doubling on
a number of ranks that is not a power of two, an allreduce whose second phase would have no tag, a
window of zero, a matrix that is not square. For any other reason no collective fails, although its
loops look up and check at every turn, and a refused one leaves no trace.
-/

namespace Collectives

open Build

namespace Pattern

variable {c : Communicator} {s : Schedule} {pattern : Pattern} {failure : Failure}

theorem outcome_eq_error :
    (pattern.outcome c s).1 = .error failure ↔
      ∃ error, failure = .refused error ∧ pattern c.size = .error error := by
  unfold outcome
  cases pattern c.size <;> simp [eq_comm]

theorem schedule_of_outcome (h : (pattern.outcome c s).1 = .error failure) :
    (pattern.outcome c s).2 = s := by
  obtain ⟨error, -, herror⟩ := outcome_eq_error.1 h
  rw [outcome, herror]

end Pattern

namespace Builder

/-- The collective as a loop. -/
def loop (c : Communicator) : Builder → Build Unit
  | tree size tag direction => Binomial.treeLoop c size tag direction
  | dissemination size tag => Dissemination.exchangeLoop c size tag
  | recursiveDoubling r => Butterfly.allreduceLoop c r
  | ring r => Ring.allreduceLoop c r
  | allreduce algorithm r =>
    match algorithm.forSize r.size with
    | .recursiveDoubling => Butterfly.allreduceLoop c r
    | .ring | .bySize => Ring.allreduceLoop c r
  | windowed request => Alltoall.windowedLoop c request
  | balanced request => Alltoall.balancedLoop c request
  | unbalanced request sizes => Alltoall.unbalancedLoop c request sizes

/-- The refusals on `ranks` ranks. Of the reasons for one collective, the first that holds counts:
the number of ranks before the tag, the number of rows before the rows, and a row before later ones.
The tree, the dissemination and the balanced all-to-all are never refused. -/
inductive Refuses (ranks : Nat) : Builder → Error → Prop where
  | notPowerOfTwo {r : Reduction} (h : ¬∃ k, ranks = 2 ^ k) :
      Refuses ranks (recursiveDoubling r) (.notPowerOfTwo ranks)
  | doublingTag {r : Reduction} (h : ∃ k, ranks = 2 ^ k) (htag : r.tag = Tag.last) :
      Refuses ranks (recursiveDoubling r) (.tagOverflow r.tag)
  | ringTag {r : Reduction} (htag : r.tag = Tag.last) : Refuses ranks (ring r) (.tagOverflow r.tag)
  | byDoubling {algorithm : Allreduce.Algorithm} {r : Reduction} {error : Error}
      (h : algorithm = .recursiveDoubling ∨ algorithm = .bySize ∧ r.size < Allreduce.largeSize)
      (herror : Refuses ranks (recursiveDoubling r) error) :
      Refuses ranks (allreduce algorithm r) error
  | byRing {algorithm : Allreduce.Algorithm} {r : Reduction} {error : Error}
      (h : algorithm = .ring ∨ algorithm = .bySize ∧ Allreduce.largeSize ≤ r.size)
      (herror : Refuses ranks (ring r) error) : Refuses ranks (allreduce algorithm r) error
  | zeroWindow {request : Alltoall.Request} (h : request.window = 0) :
      Refuses ranks (windowed request) .zeroWindow
  | rows {request : Alltoall.Request} {sizes : List (List Nat)} (h : sizes.length ≠ ranks) :
      Refuses ranks (unbalanced request sizes)
        (.lengthMismatch "payload matrix" sizes.length ranks)
  | row {request : Alltoall.Request} {front rest : List (List Nat)} {row : List Nat}
      (hrows : (front ++ row :: rest).length = ranks)
      (hfront : ∀ earlier ∈ front, earlier.length = ranks) (h : row.length ≠ ranks) :
      Refuses ranks (unbalanced request (front ++ row :: rest))
        (.lengthMismatch "payload matrix row" row.length ranks)

variable {c : Communicator} {s : Schedule}

theorem runOn_loop (hinside : c.Inside s) (builder : Builder) :
    (builder.loop c).runOn s = builder.pattern.outcome c s := by
  cases builder with
  | tree size tag direction => exact Binomial.runOn_treeLoop hinside size tag direction
  | dissemination size tag => exact Dissemination.runOn_exchangeLoop hinside size tag
  | recursiveDoubling r => exact Butterfly.runOn_allreduceLoop hinside r
  | ring r => exact Ring.runOn_allreduceLoop hinside r
  | allreduce algorithm r =>
    rw [loop, pattern, Allreduce.pattern]
    cases algorithm.forSize r.size with
    | recursiveDoubling => exact Butterfly.runOn_allreduceLoop hinside r
    | ring => exact Ring.runOn_allreduceLoop hinside r
    | bySize => exact Ring.runOn_allreduceLoop hinside r
  | windowed request => exact Alltoall.runOn_windowedLoop hinside request
  | balanced request => exact Alltoall.runOn_balancedLoop hinside request
  | unbalanced request sizes => exact Alltoall.runOn_unbalancedLoop hinside request sizes

end Builder

theorem Reduction.secondTag_eq_error {r : Reduction} {error : Error} :
    r.secondTag = .error error ↔ r.tag = Tag.last ∧ error = .tagOverflow r.tag := by
  unfold secondTag Tag.next?
  by_cases h : r.tag = Tag.last
  · simp [h, eq_comm]
  · simp [h]

theorem Ring.allreduce_eq_error {r : Reduction} {ranks : Nat} {error : Error} :
    allreduce r ranks = .error error ↔ r.tag = Tag.last ∧ error = .tagOverflow r.tag := by
  rw [← r.secondTag_eq_error]
  cases htag : r.secondTag <;> simp [allreduce, htag, bind, Except.bind, pure, Except.pure]

theorem Butterfly.allreduce_eq_error {r : Reduction} {ranks : Nat} {error : Error} :
    allreduce r ranks = .error error ↔
      ((¬∃ k, ranks = 2 ^ k) ∧ error = .notPowerOfTwo ranks) ∨
        (∃ k, ranks = 2 ^ k) ∧ r.tag = Tag.last ∧ error = .tagOverflow r.tag := by
  rw [allreduce_eq, ← isPowerOfTwo_iff, ← r.secondTag_eq_error]
  by_cases hpower : isPowerOfTwo ranks = true
  · cases htag : r.secondTag <;> simp [hpower, Except.map]
  · simp [hpower, eq_comm]

/-- The first row of a wrong length. -/
theorem Alltoall.find?_row {sizes : List (List Nat)} {ranks : Nat} {row : List Nat} :
    sizes.find? (·.length ≠ ranks) = some row ↔ row.length ≠ ranks ∧
      ∃ front rest, sizes = front ++ row :: rest ∧ ∀ earlier ∈ front, earlier.length = ranks := by
  simp [List.find?_eq_some_iff_append]

theorem Alltoall.unbalanced_eq_error {request : Request} {sizes : List (List Nat)} {ranks : Nat}
    {error : Error} :
    unbalanced request sizes ranks = .error error ↔
      (sizes.length ≠ ranks ∧ error = .lengthMismatch "payload matrix" sizes.length ranks) ∨
        sizes.length = ranks ∧ ∃ row, sizes.find? (·.length ≠ ranks) = some row ∧
          error = .lengthMismatch "payload matrix row" row.length ranks := by
  unfold unbalanced
  by_cases hrows : sizes.length = ranks
  · rw [if_neg (not_not_intro hrows)]
    cases sizes.find? (·.length ≠ ranks) <;> simp [hrows, eq_comm]
  · simp [hrows, eq_comm]

namespace Builder

variable {ranks : Nat} {error : Error}

theorem refuses_recursiveDoubling {r : Reduction} :
    Butterfly.allreduce r ranks = .error error ↔ Refuses ranks (recursiveDoubling r) error := by
  rw [Butterfly.allreduce_eq_error]
  constructor
  · rintro (⟨h, rfl⟩ | ⟨h, htag, rfl⟩)
    · exact .notPowerOfTwo h
    · exact .doublingTag h htag
  · intro h
    cases h with
    | notPowerOfTwo h => exact Or.inl ⟨h, rfl⟩
    | doublingTag h htag => exact Or.inr ⟨h, htag, rfl⟩

theorem refuses_ring {r : Reduction} :
    Ring.allreduce r ranks = .error error ↔ Refuses ranks (ring r) error := by
  rw [Ring.allreduce_eq_error]
  constructor
  · rintro ⟨htag, rfl⟩
    exact .ringTag htag
  · intro h
    cases h with
    | ringTag htag => exact ⟨htag, rfl⟩

/-- An allreduce is refused as the algorithm that it comes to. -/
theorem refuses_allreduce {algorithm : Allreduce.Algorithm} {r : Reduction} :
    Allreduce.pattern algorithm r ranks = .error error ↔
      Refuses ranks (allreduce algorithm r) error := by
  have hdoubling : algorithm.forSize r.size = .recursiveDoubling ↔
      algorithm = .recursiveDoubling ∨ algorithm = .bySize ∧ r.size < Allreduce.largeSize := by
    cases algorithm <;> simp [Allreduce.Algorithm.forSize]
  have hring : algorithm.forSize r.size = .ring ↔
      algorithm = .ring ∨ algorithm = .bySize ∧ Allreduce.largeSize ≤ r.size := by
    cases algorithm <;> simp [Allreduce.Algorithm.forSize]
  have hnever : algorithm.forSize r.size ≠ .bySize := by
    cases algorithm <;> simp only [Allreduce.Algorithm.forSize, ne_eq, reduceCtorEq,
      not_false_eq_true]
    split <;> simp
  rw [Allreduce.pattern]
  cases hfor : algorithm.forSize r.size with
  | recursiveDoubling =>
    refine refuses_recursiveDoubling.trans ⟨.byDoubling (hdoubling.1 hfor), fun hrefuses => ?_⟩
    cases hrefuses with
    | byDoubling _ herror => exact herror
    | byRing h => cases hfor.symm.trans (hring.2 h)
  | ring =>
    refine refuses_ring.trans ⟨.byRing (hring.1 hfor), fun hrefuses => ?_⟩
    cases hrefuses with
    | byDoubling h => cases hfor.symm.trans (hdoubling.2 h)
    | byRing _ herror => exact herror
  | bySize => exact absurd hfor hnever

/-- Patterns are refused just as `Refuses` says. -/
theorem pattern_eq_error {builder : Builder} :
    builder.pattern ranks = .error error ↔ builder.Refuses ranks error := by
  cases builder with
  | tree size tag direction => constructor <;> intro h <;> cases h
  | dissemination size tag => constructor <;> intro h <;> cases h
  | recursiveDoubling r => exact refuses_recursiveDoubling
  | ring r => exact refuses_ring
  | allreduce algorithm r => exact refuses_allreduce
  | windowed request =>
    rw [pattern, Alltoall.windowed]
    constructor
    · intro h
      split at h
      case isTrue hwindow => cases h; exact .zeroWindow hwindow
      case isFalse => cases h
    · intro h
      cases h with
      | zeroWindow hwindow => rw [if_pos hwindow]
  | balanced request => constructor <;> intro h <;> cases h
  | unbalanced request sizes =>
    rw [pattern, Alltoall.unbalanced_eq_error]
    constructor
    · rintro (⟨h, rfl⟩ | ⟨hrows, row, hrow, rfl⟩)
      · exact .rows h
      · obtain ⟨h, front, rest, rfl, hfront⟩ := Alltoall.find?_row.1 hrow
        exact .row hrows hfront h
    · intro h
      cases h with
      | rows h => exact Or.inl ⟨h, rfl⟩
      | row hrows hfront h =>
        exact Or.inr ⟨hrows, _, Alltoall.find?_row.2 ⟨h, _, _, rfl, hfront⟩, rfl⟩

/-- A collective on a communicator whose members all lie in the schedule, some of them perhaps more
than once, is carried out to its end or leaves the schedule as it was, whether its plans are placed
or it runs as a loop that checks at every turn: both leave the same. It fails only by being refused,
and is refused exactly as `Refuses` says. An all-to-all whose sizes are drawn is refused for a
window of zero only. -/
theorem all_or_nothing {c : Communicator} {s : Schedule} (hinside : c.Inside s) :
    (∀ builder : Builder,
      (builder.loop c).runOn s = (Build.run c builder.pattern).runOn s ∧
      (∀ failure, ((builder.loop c).runOn s).1 = .error failure ↔
        ∃ error, failure = .refused error ∧ builder.Refuses c.size error) ∧
      ∀ failure, ((builder.loop c).runOn s).1 = .error failure →
        ((builder.loop c).runOn s).2 = s) ∧
    ∀ (algorithm : Alltoall.Algorithm) (request : Alltoall.Request) (words : Random.Words)
      (start : Nat) (failure : Failure),
      ((Build.run c (Alltoall.pattern algorithm request
        ((Alltoall.drawSizes algorithm request words c.size).run start).1)).runOn s).1 =
          .error failure ↔
        algorithm = .windowed ∧ request.window = 0 ∧ failure = .refused .zeroWindow := by
  constructor
  · intro builder
    rw [builder.runOn_loop hinside, builder.coherent.runOn_run hinside]
    refine ⟨rfl, fun failure => ?_, fun failure => Pattern.schedule_of_outcome⟩
    simp only [Pattern.outcome_eq_error, pattern_eq_error]
  · intro algorithm request words start failure
    rw [(coherent_alltoall algorithm request _).runOn_run hinside, Pattern.outcome_eq_error]
    simp only [Alltoall.pattern_drawn_eq_error]
    constructor
    · rintro ⟨_, rfl, halgorithm, hwindow, rfl⟩
      exact ⟨halgorithm, hwindow, rfl⟩
    · rintro ⟨halgorithm, hwindow, rfl⟩
      exact ⟨_, rfl, halgorithm, hwindow, rfl⟩

/-- On a communicator that has the rank 0 three times, with no power of two of members, and with a
matrix whose second row is too short. -/
theorem all_or_nothing_repeated :
    let busy : Schedule := ⟨[[⟨.calc 7, []⟩], []]⟩
    let thrice : Communicator := ⟨[0, 1, 0, 0, 1]⟩
    let sizes := [[0, 1, 2, 3, 4], [5, 6, 7, 8], [], [9, 10, 11, 12, 13], [14, 15, 16, 17, 18]]
    thrice.Inside busy ∧
      (Build.run thrice (recursiveDoubling ⟨64, 3, 0⟩).pattern).runOn busy =
        (.error (.refused (.notPowerOfTwo 5)), busy) ∧
      (Build.run thrice (unbalanced ⟨64, 3, 1⟩ sizes).pattern).runOn busy =
        (.error (.refused (.lengthMismatch "payload matrix row" 4 5)), busy) ∧
      ∃ made, (Build.run thrice (ring ⟨64, 3, 2⟩).pattern).runOn busy = (.ok (), made) := by
  intro busy thrice sizes
  have hinside : thrice.Inside busy := by
    simp [thrice, busy, Communicator.Inside, Schedule.rankCount]
  have hall := (all_or_nothing hinside).1
  have hrefused : ∀ (builder : Builder) (error : Error), builder.Refuses 5 error →
      (Build.run thrice builder.pattern).runOn busy = (.error (.refused error), busy) := by
    intro builder error hrefuses
    obtain ⟨hsame, hfails, hback⟩ := hall builder
    have hfailed := (hfails (.refused error)).2 ⟨error, rfl, hrefuses⟩
    rw [← hsame]
    exact Prod.ext hfailed (hback _ hfailed)
  refine ⟨hinside, hrefused _ _ (.notPowerOfTwo fun h => ?_), hrefused _ _ ?_, ?_⟩
  · exact absurd (Butterfly.isPowerOfTwo_iff.2 h) (by decide)
  · exact @Refuses.row 5 ⟨64, 3, 1⟩ [[0, 1, 2, 3, 4]] (sizes.drop 2) [5, 6, 7, 8]
      rfl (by decide) (by decide)
  · obtain ⟨hsame, hfails, -⟩ := hall (ring ⟨64, 3, 2⟩)
    rw [← hsame]
    cases hresult : ((ring ⟨64, 3, 2⟩).loop thrice).runOn busy with
    | mk result made =>
      cases result with
      | ok => exact ⟨made, rfl⟩
      | error failure =>
        obtain ⟨error, -, hrefuses⟩ := (hfails failure).1 (congrArg Prod.fst hresult)
        cases hrefuses with
        | ringTag htag => exact absurd htag (by decide)

end Builder
end Collectives
