import Collectives.Proofs.Refusals
import Collectives.Proofs.SideBySide
import Collectives.Spec

/-!
# Accepted descriptions

What speaks against a description is known from its fields, and of several objections the first
counts. A description without objections is built, whatever else it says, and the schedule depends
on no field but those that its family and algorithm read.
-/

namespace Collectives

/-- What comes first is one thing if there is one thing at most in every place. -/
theorem eq_of_first {α : Type} (holds : Nat → α → Prop) {a b : α}
    (hunique : ∀ {place a b}, holds place a → holds place b → a = b)
    (ha : ∃ place, holds place a ∧ ∀ earlier < place, ∀ other, ¬holds earlier other)
    (hb : ∃ place, holds place b ∧ ∀ earlier < place, ∀ other, ¬holds earlier other) : a = b := by
  obtain ⟨place, hholds, hfirst⟩ := ha
  obtain ⟨place', hholds', hfirst'⟩ := hb
  rcases Nat.lt_trichotomy place place' with hlt | rfl | hlt
  · exact absurd hholds (hfirst' place hlt a)
  · exact hunique hholds hholds'
  · exact absurd hholds' (hfirst place' hlt b)

namespace Family

/-- Whether the collective is an allreduce, single or in groups. -/
def Reduces (family : Family) : Prop := family = .allreduce ∨ family = .multiAllreduce

/-- Whether the collective is an all-to-all, single or in groups. -/
def Exchanges (family : Family) : Prop := family = .alltoall ∨ family = .multiAlltoall

theorem not_reduces_tree : ¬Reduces .binomialTree := by simp [Reduces]

theorem not_exchanges_tree : ¬Exchanges .binomialTree := by simp [Exchanges]

theorem not_reduces_dissemination : ¬Reduces .dissemination := by simp [Reduces]

theorem not_exchanges_dissemination : ¬Exchanges .dissemination := by simp [Exchanges]

theorem Reduces.not_exchanges {family : Family} (h : family.Reduces) : ¬family.Exchanges := by
  rcases h with rfl | rfl <;> simp [Exchanges]

end Family

namespace Spec

/-- Whether an allreduce with these fields comes to recursive doubling: by name, or because the
choice is left to the size and the size is small. -/
inductive Doubles (spec : Spec) : Prop where
  | named {name : String} (hname : spec.algorithm = some name)
      (h : Allreduce.Algorithm.parse name = .ok .recursiveDoubling)
  | bySize {name : String} (hname : spec.algorithm = some name)
      (h : Allreduce.Algorithm.parse name = .ok .bySize)
      (hsmall : spec.datasize < Allreduce.largeSize)
  | unnamed (h : spec.algorithm = none) (hsmall : spec.datasize < Allreduce.largeSize)

/-- What speaks against a description, with the place of the objection among all objections. A name
appears in its refusal as it was given. -/
inductive Objection (spec : Spec) : Nat → Error → Prop where
  | unknownCollective (h : ∀ family, Family.parse spec.collective ≠ .ok family) :
      Objection spec 0 (.unknownCollective spec.collective)
  | noRanks (h : spec.commSize = 0) : Objection spec 1 .emptyCommunicator
  | noGroups {family : Family} (hfamily : Family.parse spec.collective = .ok family)
      (hgrouped : family.isGrouped = true) (h : spec.groupCount = 0) :
      Objection spec 1 .emptyCommunicator
  | unknownDirection {name : String} (hfamily : Family.parse spec.collective = .ok .binomialTree)
      (hname : spec.direction = some name)
      (h : ∀ direction, Binomial.Direction.parse name ≠ .ok direction) :
      Objection spec 2 (.unknownDirection name)
  | unknownAllreduce {family : Family} {name : String}
      (hfamily : Family.parse spec.collective = .ok family) (hreduces : family.Reduces)
      (hname : spec.algorithm = some name)
      (h : ∀ algorithm, Allreduce.Algorithm.parse name ≠ .ok algorithm) :
      Objection spec 2 (.unknownAllreduce name)
  | unknownAlltoall {family : Family} {name : String}
      (hfamily : Family.parse spec.collective = .ok family) (hexchanges : family.Exchanges)
      (hname : spec.algorithm = some name)
      (h : ∀ algorithm, Alltoall.Algorithm.parse name ≠ .ok algorithm) :
      Objection spec 2 (.unknownAlltoall name)
  | notPowerOfTwo {family : Family} (hfamily : Family.parse spec.collective = .ok family)
      (hreduces : family.Reduces) (hdoubles : spec.Doubles) (h : ¬∃ k, spec.commSize = 2 ^ k) :
      Objection spec 3 (.notPowerOfTwo spec.commSize)
  | lastTag {family : Family} (hfamily : Family.parse spec.collective = .ok family)
      (hreduces : family.Reduces) (h : spec.tag = Tag.last) :
      Objection spec 4 (.tagOverflow Tag.last)
  | zeroWindow {family : Family} {name : String}
      (hfamily : Family.parse spec.collective = .ok family) (hexchanges : family.Exchanges)
      (hname : spec.algorithm = some name)
      (hwindowed : Alltoall.Algorithm.parse name = .ok .windowed) (h : spec.windowSize = 0) :
      Objection spec 5 .zeroWindow

/-- The refusal of a description: its first objection. -/
def RefusedFor (spec : Spec) (error : Error) : Prop :=
  ∃ place, spec.Objection place error ∧
    ∀ earlier < place, ∀ other, ¬spec.Objection earlier other

/-- The fields of a description. -/
inductive Field where
  | collective
  | algorithm
  | commSize
  | datasize
  | tag
  | direction
  | windowSize
  | groupCount
  | computeTime
  | seed
  deriving DecidableEq, Repr

/-- Whether two descriptions say the same in a field. -/
def SameIn (spec other : Spec) : Field → Prop
  | .collective => spec.collective = other.collective
  | .algorithm => spec.algorithm = other.algorithm
  | .commSize => spec.commSize = other.commSize
  | .datasize => spec.datasize = other.datasize
  | .tag => spec.tag = other.tag
  | .direction => spec.direction = other.direction
  | .windowSize => spec.windowSize = other.windowSize
  | .groupCount => spec.groupCount = other.groupCount
  | .computeTime => spec.computeTime = other.computeTime
  | .seed => spec.seed = other.seed

/-- What an all-to-all reads besides its name, its ranks, its bytes and its tag. -/
def exchangeFields (spec : Spec) : List Field :=
  match spec.alltoallAlgorithm with
  | .ok .windowed => [.windowSize]
  | .ok .unbalanced => [.seed]
  | .ok .balanced | .error _ => []

/-- The fields that the family and the algorithm of a description read. -/
def fields (spec : Spec) : List Field :=
  match Family.parse spec.collective with
  | .error _ => [.collective]
  | .ok .binomialTree => [.collective, .commSize, .datasize, .tag, .direction]
  | .ok .dissemination => [.collective, .commSize, .datasize, .tag]
  | .ok .allreduce => [.collective, .algorithm, .commSize, .datasize, .tag, .computeTime]
  | .ok .multiAllreduce =>
    [.collective, .algorithm, .commSize, .groupCount, .datasize, .tag, .computeTime]
  | .ok .alltoall => [.collective, .algorithm, .commSize, .datasize, .tag] ++ spec.exchangeFields
  | .ok .multiAlltoall =>
    [.collective, .algorithm, .commSize, .groupCount, .datasize, .tag] ++ spec.exchangeFields

end Spec

theorem Family.parse_cases (name : String) :
    (∃ family, parse name = .ok family) ∨ parse name = .error (.unknownCollective name) := by
  unfold parse
  split <;> simp

theorem Binomial.Direction.parse_cases (name : String) :
    (∃ direction, parse name = .ok direction) ∨ parse name = .error (.unknownDirection name) := by
  unfold parse
  split <;> simp

theorem Allreduce.Algorithm.parse_cases (name : String) :
    (∃ algorithm, parse name = .ok algorithm) ∨ parse name = .error (.unknownAllreduce name) := by
  unfold parse
  split <;> simp

theorem Alltoall.Algorithm.parse_cases (name : String) :
    (∃ algorithm, parse name = .ok algorithm) ∨ parse name = .error (.unknownAlltoall name) := by
  unfold parse
  split <;> simp

namespace Spec

/-! A name that is given is known, or it is refused as it was given. -/

theorem treeDirection_cases (spec : Spec) :
    (∃ direction, spec.treeDirection = .ok direction ∧
      ∀ name, spec.direction = some name → Binomial.Direction.parse name = .ok direction) ∨
    ∃ name, spec.direction = some name ∧ spec.treeDirection = .error (.unknownDirection name) ∧
      Binomial.Direction.parse name = .error (.unknownDirection name) := by
  unfold treeDirection
  cases spec.direction with
  | none => simp
  | some name => simpa using Binomial.Direction.parse_cases name

theorem allreduceAlgorithm_cases (spec : Spec) :
    (∃ algorithm, spec.allreduceAlgorithm = .ok algorithm ∧
      ∀ name, spec.algorithm = some name → Allreduce.Algorithm.parse name = .ok algorithm) ∨
    ∃ name, spec.algorithm = some name ∧ spec.allreduceAlgorithm = .error (.unknownAllreduce name) ∧
      Allreduce.Algorithm.parse name = .error (.unknownAllreduce name) := by
  unfold allreduceAlgorithm
  cases spec.algorithm with
  | none => simp
  | some name => simpa using Allreduce.Algorithm.parse_cases name

theorem alltoallAlgorithm_cases (spec : Spec) :
    (∃ algorithm, spec.alltoallAlgorithm = .ok algorithm ∧
      ∀ name, spec.algorithm = some name → Alltoall.Algorithm.parse name = .ok algorithm) ∨
    ∃ name, spec.algorithm = some name ∧ spec.alltoallAlgorithm = .error (.unknownAlltoall name) ∧
      Alltoall.Algorithm.parse name = .error (.unknownAlltoall name) := by
  unfold alltoallAlgorithm
  cases spec.algorithm with
  | none => simp
  | some name => simpa using Alltoall.Algorithm.parse_cases name

end Spec

/-- The outcome `result` on `ranks` ranks is what the pattern makes of `size` ranks: its refusal, or
a schedule. -/
structure Pattern.Yields (pattern : Pattern) (size ranks : Nat)
    (result : Except Failure Schedule) : Prop where
  refused : ∀ error, pattern size = .error error → result = .error (.refused error)
  built : ∀ plans, pattern size = .ok plans → ∃ s, result = .ok s ∧ s.rankCount = ranks

theorem Pattern.Coherent.yields {pattern : Pattern} (hc : pattern.Coherent) {size : Nat}
    (hsize : 0 < size) : pattern.Yields size size (pattern.schedule size) where
  refused := fun error herror => Pattern.schedule_eq_error hsize herror
  built := by
    intro plans hplans
    obtain ⟨level, hlevel⟩ := hc size plans hplans
    exact ⟨_, Pattern.schedule_eq hsize hplans hlevel, Schedule.rankCount_onWorld ..⟩

namespace Groups

variable {count size : Nat}

theorem yields {pattern : Nat → Pattern} (hcount : 0 < count) (hsize : 0 < size)
    (hcoherent : ∀ index, (pattern index).Coherent)
    (halike : ∀ index < count, ∀ error,
      pattern index size = .error error ↔ pattern 0 size = .error error) :
    (pattern 0).Yields size (count * size) (schedule count size pattern) where
  refused := fun error herror => schedule_eq_error hcount hsize herror
  built := by
    intro plans hplans
    have hcopies := copies_of_coherent hcount hsize hcoherent halike
    obtain ⟨one, hone, -⟩ := ((hcoherent 0).yields hsize).built plans hplans
    obtain ⟨s, hs⟩ := hcopies.exists_ok hcount hone
    exact ⟨s, hs, hcopies.rankCount_eq s hs⟩

theorem yields_allreduce (hcount : 0 < count) (hsize : 0 < size)
    (algorithm : Allreduce.Algorithm) (r : Reduction) :
    (Allreduce.pattern algorithm r).Yields size (count * size)
      (allreduce algorithm count size r) :=
  yields hcount hsize (fun _ => Builder.coherent_allreduce algorithm r) fun _ _ _ => Iff.rfl

theorem yields_alltoall (hcount : 0 < count) (hsize : 0 < size)
    (algorithm : Alltoall.Algorithm) (request : Alltoall.Request) (words : Random.Words) :
    (Alltoall.pattern algorithm request
        ((Alltoall.drawSizes algorithm request words size).run 0).1).Yields size (count * size)
      (alltoall algorithm count size request words) := by
  have hyields := yields hcount hsize (fun _ => Builder.coherent_alltoall algorithm request _)
    fun index hindex error => Alltoall.pattern_drawn_alike algorithm request words size hindex
  rwa [Random.Draw.getD_run_replicate _ hcount] at hyields

end Groups

/-- An allreduce is refused for its ranks where it comes to recursive doubling, and otherwise for
its tag. -/
theorem Allreduce.pattern_eq_error {algorithm : Algorithm} {r : Reduction} {ranks : Nat}
    {error : Error} :
    pattern algorithm r ranks = .error error ↔
      (algorithm.forSize r.size = .recursiveDoubling ∧ (¬∃ k, ranks = 2 ^ k) ∧
        error = .notPowerOfTwo ranks) ∨
      ¬(algorithm.forSize r.size = .recursiveDoubling ∧ ¬∃ k, ranks = 2 ^ k) ∧
        r.tag = Tag.last ∧ error = .tagOverflow Tag.last := by
  have htag : (r.tag = Tag.last ∧ error = .tagOverflow r.tag) ↔
      r.tag = Tag.last ∧ error = .tagOverflow Tag.last :=
    and_congr_right fun h => by rw [h]
  rw [pattern]
  cases hfor : algorithm.forSize r.size with
  | recursiveDoubling =>
    rw [Butterfly.allreduce_eq_error, htag]
    simp
  | ring =>
    rw [Ring.allreduce_eq_error, htag]
    simp
  | bySize =>
    rw [Ring.allreduce_eq_error, htag]
    simp

namespace Spec

variable {spec : Spec} {family : Family} {place : Nat} {error : Error}

/-- A description with a known family and with ranks: the first two objections fall away. -/
structure Ready (spec : Spec) (family : Family) : Prop where
  parsed : Family.parse spec.collective = .ok family
  ranks : 0 < spec.commSize
  groups : family.isGrouped = true → 0 < spec.groupCount

theorem Ready.eq (h : spec.Ready family) {other : Family}
    (hother : Family.parse spec.collective = .ok other) : other = family :=
  Except.ok.inj (hother.symm.trans h.parsed)

theorem Ready.two_le (h : spec.Ready family) (hobjection : spec.Objection place error) :
    2 ≤ place := by
  cases hobjection with
  | unknownCollective hunknown => exact absurd h.parsed (hunknown family)
  | noRanks hzero => exact absurd hzero h.ranks.ne'
  | noGroups hfamily hgrouped hzero =>
    rw [h.eq hfamily] at hgrouped
    exact absurd hzero (h.groups hgrouped).ne'
  | _ => decide

theorem Ready.objection_tree (h : spec.Ready .binomialTree) :
    spec.Objection place error ↔ place = 2 ∧ ∃ name, spec.direction = some name ∧
      (∀ direction, Binomial.Direction.parse name ≠ .ok direction) ∧
      error = .unknownDirection name := by
  constructor
  · intro hobjection
    have hplace := h.two_le hobjection
    cases hobjection with
    | unknownCollective | noRanks | noGroups => omega
    | unknownDirection hfamily hname hunknown => exact ⟨rfl, _, hname, hunknown, rfl⟩
    | unknownAllreduce hfamily hreduces | notPowerOfTwo hfamily hreduces
    | lastTag hfamily hreduces =>
      exact absurd (h.eq hfamily ▸ hreduces) Family.not_reduces_tree
    | unknownAlltoall hfamily hexchanges | zeroWindow hfamily hexchanges =>
      exact absurd (h.eq hfamily ▸ hexchanges) Family.not_exchanges_tree
  · rintro ⟨rfl, name, hname, hunknown, rfl⟩
    exact .unknownDirection h.parsed hname hunknown

theorem Ready.not_objection_dissemination (h : spec.Ready .dissemination) :
    ¬spec.Objection place error := by
  intro hobjection
  have hplace := h.two_le hobjection
  cases hobjection with
  | unknownCollective | noRanks | noGroups => omega
  | unknownDirection hfamily => cases h.eq hfamily
  | unknownAllreduce hfamily hreduces | notPowerOfTwo hfamily hreduces
  | lastTag hfamily hreduces =>
    exact Family.not_reduces_dissemination (h.eq hfamily ▸ hreduces)
  | unknownAlltoall hfamily hexchanges | zeroWindow hfamily hexchanges =>
    exact Family.not_exchanges_dissemination (h.eq hfamily ▸ hexchanges)

theorem Ready.objection_allreduce (h : spec.Ready family) (hreduces : family.Reduces) :
    spec.Objection place error ↔
      (place = 2 ∧ ∃ name, spec.algorithm = some name ∧
        (∀ algorithm, Allreduce.Algorithm.parse name ≠ .ok algorithm) ∧
        error = .unknownAllreduce name) ∨
      (place = 3 ∧ spec.Doubles ∧ (¬∃ k, spec.commSize = 2 ^ k) ∧
        error = .notPowerOfTwo spec.commSize) ∨
      place = 4 ∧ spec.tag = Tag.last ∧ error = .tagOverflow Tag.last := by
  constructor
  · intro hobjection
    have hplace := h.two_le hobjection
    cases hobjection with
    | unknownCollective | noRanks | noGroups => omega
    | unknownDirection hfamily =>
      exact absurd ((h.eq hfamily).symm ▸ hreduces) Family.not_reduces_tree
    | unknownAllreduce hfamily _ hname hunknown => exact Or.inl ⟨rfl, _, hname, hunknown, rfl⟩
    | notPowerOfTwo hfamily _ hdoubles hpower => exact Or.inr (Or.inl ⟨rfl, hdoubles, hpower, rfl⟩)
    | lastTag hfamily _ htag => exact Or.inr (Or.inr ⟨rfl, htag, rfl⟩)
    | unknownAlltoall hfamily hexchanges | zeroWindow hfamily hexchanges =>
      exact absurd (h.eq hfamily ▸ hexchanges) hreduces.not_exchanges
  · rintro (⟨rfl, name, hname, hunknown, rfl⟩ | ⟨rfl, hdoubles, hpower, rfl⟩ | ⟨rfl, htag, rfl⟩)
    · exact .unknownAllreduce h.parsed hreduces hname hunknown
    · exact .notPowerOfTwo h.parsed hreduces hdoubles hpower
    · exact .lastTag h.parsed hreduces htag

theorem Ready.objection_alltoall (h : spec.Ready family) (hexchanges : family.Exchanges) :
    spec.Objection place error ↔
      (place = 2 ∧ ∃ name, spec.algorithm = some name ∧
        (∀ algorithm, Alltoall.Algorithm.parse name ≠ .ok algorithm) ∧
        error = .unknownAlltoall name) ∨
      place = 5 ∧ (∃ name, spec.algorithm = some name ∧
        Alltoall.Algorithm.parse name = .ok .windowed) ∧ spec.windowSize = 0 ∧
        error = .zeroWindow := by
  constructor
  · intro hobjection
    have hplace := h.two_le hobjection
    cases hobjection with
    | unknownCollective | noRanks | noGroups => omega
    | unknownDirection hfamily =>
      exact absurd ((h.eq hfamily).symm ▸ hexchanges) Family.not_exchanges_tree
    | unknownAllreduce hfamily hreduces | notPowerOfTwo hfamily hreduces
    | lastTag hfamily hreduces =>
      exact absurd hexchanges (h.eq hfamily ▸ hreduces).not_exchanges
    | unknownAlltoall hfamily _ hname hunknown => exact Or.inl ⟨rfl, _, hname, hunknown, rfl⟩
    | zeroWindow hfamily _ hname hwindowed hzero =>
      exact Or.inr ⟨rfl, ⟨_, hname, hwindowed⟩, hzero, rfl⟩
  · rintro (⟨rfl, name, hname, hunknown, rfl⟩ | ⟨rfl, ⟨name, hname, hwindowed⟩, hzero, rfl⟩)
    · exact .unknownAlltoall h.parsed hexchanges hname hunknown
    · exact .zeroWindow h.parsed hexchanges hname hwindowed hzero

/-- What a description comes to: it is refused for its first objection, or there is none and a
schedule of `ranks` ranks is built. -/
inductive Verdict (spec : Spec) (ranks : Nat) : Except Failure Schedule → Prop where
  | refused {error : Error} (h : spec.RefusedFor error) :
      Verdict spec ranks (.error (.refused error))
  | built {s : Schedule} (h : ∀ place error, ¬spec.Objection place error)
      (hranks : s.rankCount = ranks) : Verdict spec ranks (.ok s)

theorem Verdict.of_second (h : spec.Ready family) (hobjection : spec.Objection 2 error)
    {ranks : Nat} : spec.Verdict ranks (.error (.refused error)) :=
  .refused ⟨2, hobjection, fun _ hearlier _ hother =>
    absurd (h.two_le hother) (Nat.not_le.2 hearlier)⟩

theorem Ready.verdict_tree (h : spec.Ready .binomialTree) :
    spec.Verdict spec.commSize (named spec.treeDirection fun direction =>
      (Binomial.tree spec.datasize spec.tag direction).schedule spec.commSize) := by
  rcases spec.treeDirection_cases with ⟨direction, hdirection, hknown⟩ |
    ⟨name, hname, hrefused, hunknown⟩
  · obtain ⟨s, hs, hranks⟩ := ((Binomial.coherent spec.datasize spec.tag direction).yields
      h.ranks).built _ rfl
    rw [hdirection, named, hs]
    refine .built (fun place error hobjection => ?_) hranks
    obtain ⟨-, name, hname, hunknown, -⟩ := h.objection_tree.1 hobjection
    exact hunknown direction (hknown name hname)
  · rw [hrefused, named]
    exact .of_second h (.unknownDirection h.parsed hname (by simp [hunknown]))

theorem Ready.verdict_dissemination (h : spec.Ready .dissemination) :
    spec.Verdict spec.commSize
      ((Dissemination.exchange spec.datasize spec.tag).schedule spec.commSize) := by
  obtain ⟨s, hs, hranks⟩ := ((Dissemination.coherent spec.datasize spec.tag).yields
    h.ranks).built _ rfl
  rw [hs]
  exact .built (fun place error => h.not_objection_dissemination) hranks

theorem doubles_iff {algorithm : Allreduce.Algorithm}
    (h : spec.allreduceAlgorithm = .ok algorithm) :
    spec.Doubles ↔ algorithm.forSize spec.reduction.size = .recursiveDoubling := by
  have hfor : algorithm.forSize spec.reduction.size = .recursiveDoubling ↔
      algorithm = .recursiveDoubling ∨
        algorithm = .bySize ∧ spec.datasize < Allreduce.largeSize := by
    unfold Allreduce.Algorithm.forSize reduction
    cases algorithm with
    | bySize => by_cases hsmall : spec.datasize < Allreduce.largeSize <;> simp [hsmall]
    | _ => simp
  rw [hfor]
  unfold allreduceAlgorithm at h
  cases hname : spec.algorithm with
  | none =>
    simp only [hname, Except.ok.injEq] at h
    subst h
    constructor
    · rintro (⟨hother, -⟩ | ⟨hother, -, -⟩ | ⟨-, hsmall⟩)
      · cases hname.symm.trans hother
      · cases hname.symm.trans hother
      · exact Or.inr ⟨rfl, hsmall⟩
    · rintro (hdoubling | ⟨-, hsmall⟩)
      · cases hdoubling
      · exact .unnamed hname hsmall
  | some name =>
    simp only [hname] at h
    constructor
    · rintro (⟨hother, hparse⟩ | ⟨hother, hparse, hsmall⟩ | ⟨hnone, -⟩)
      · cases hname.symm.trans hother
        exact Or.inl (Except.ok.inj (h.symm.trans hparse))
      · cases hname.symm.trans hother
        exact Or.inr ⟨Except.ok.inj (h.symm.trans hparse), hsmall⟩
      · cases hname.symm.trans hnone
    · rintro (rfl | ⟨rfl, hsmall⟩)
      · exact .named hname h
      · exact .bySize hname h hsmall

/-- An allreduce whose algorithm is known is refused as its pattern is. -/
theorem Ready.verdict_reducing (h : spec.Ready family) (hreduces : family.Reduces)
    {algorithm : Allreduce.Algorithm} (halgorithm : spec.allreduceAlgorithm = .ok algorithm)
    (hnames : ∀ name, spec.algorithm = some name →
      Allreduce.Algorithm.parse name = .ok algorithm)
    {ranks : Nat} {result : Except Failure Schedule}
    (hyields : (Allreduce.pattern algorithm spec.reduction).Yields spec.commSize ranks result) :
    spec.Verdict ranks result := by
  have hdoubles := doubles_iff halgorithm
  have hobjection := fun place error => @h.objection_allreduce _ _ place error hreduces
  have hknown : ∀ error, ¬spec.Objection 2 error := by
    intro error hsecond
    rcases (hobjection _ _).1 hsecond with ⟨-, name, hname, hunknown, -⟩ | ⟨hplace, -⟩ | ⟨hplace, -⟩
    · exact hunknown algorithm (hnames name hname)
    · cases hplace
    · cases hplace
  cases hpattern : Allreduce.pattern algorithm spec.reduction spec.commSize with
  | error error =>
    rw [hyields.refused error hpattern]
    apply Verdict.refused
    rcases Allreduce.pattern_eq_error.1 hpattern with ⟨hfor, hpower, rfl⟩ | ⟨hnot, htag, rfl⟩
    · refine ⟨3, (hobjection _ _).2 (Or.inr (Or.inl ⟨rfl, hdoubles.2 hfor, hpower, rfl⟩)), ?_⟩
      intro earlier hearlier other hother
      obtain rfl : earlier = 2 := by have := h.two_le hother; omega
      exact hknown other hother
    · refine ⟨4, (hobjection _ _).2 (Or.inr (Or.inr ⟨rfl, htag, rfl⟩)), ?_⟩
      intro earlier hearlier other hother
      rcases (hobjection _ _).1 hother with ⟨rfl, -⟩ | ⟨-, hdoubling, hpower, -⟩ | ⟨rfl, -⟩
      · exact hknown other hother
      · exact hnot ⟨hdoubles.1 hdoubling, hpower⟩
      · exact absurd hearlier (Nat.lt_irrefl 4)
  | ok plans =>
    obtain ⟨s, rfl, hranks⟩ := hyields.built plans hpattern
    refine .built (fun place error hother => ?_) hranks
    have haccepted : ∀ error, Allreduce.pattern algorithm spec.reduction spec.commSize ≠
        .error error := by simp [hpattern]
    have hnone := fun error => mt Allreduce.pattern_eq_error.2 (haccepted error)
    rcases (hobjection _ _).1 hother with ⟨rfl, -⟩ | ⟨-, hdoubling, hpower, -⟩ | ⟨-, htag, -⟩
    · exact hknown error hother
    · exact hnone _ (Or.inl ⟨hdoubles.1 hdoubling, hpower, rfl⟩)
    · by_cases hnot : algorithm.forSize spec.reduction.size = .recursiveDoubling ∧
          ¬∃ k, spec.commSize = 2 ^ k
      · exact hnone _ (Or.inl ⟨hnot.1, hnot.2, rfl⟩)
      · exact hnone _ (Or.inr ⟨hnot, htag, rfl⟩)

theorem Ready.verdict_allreduce (h : spec.Ready family) (hreduces : family.Reduces) {ranks : Nat}
    {next : Allreduce.Algorithm → Except Failure Schedule}
    (hyields : ∀ algorithm,
      (Allreduce.pattern algorithm spec.reduction).Yields spec.commSize ranks (next algorithm)) :
    spec.Verdict ranks (named spec.allreduceAlgorithm next) := by
  rcases spec.allreduceAlgorithm_cases with ⟨algorithm, halgorithm, hknown⟩ |
    ⟨name, hname, hrefused, hunknown⟩
  · have hverdict := h.verdict_reducing hreduces halgorithm hknown (hyields algorithm)
    rwa [halgorithm]
  · rw [hrefused, named]
    exact .of_second h (.unknownAllreduce h.parsed hreduces hname (by simp [hunknown]))

/-- A windowed exchange is asked for by name only. -/
theorem exists_name_of_windowed (h : spec.alltoallAlgorithm = .ok .windowed) :
    ∃ name, spec.algorithm = some name := by
  unfold alltoallAlgorithm at h
  cases hname : spec.algorithm with
  | none => simp [hname] at h
  | some name => exact ⟨name, rfl⟩

theorem Ready.verdict_alltoall (h : spec.Ready family) (hexchanges : family.Exchanges) {ranks : Nat}
    {sizesOf : Alltoall.Algorithm → List (List Nat)}
    {next : Alltoall.Algorithm → Except Failure Schedule}
    (hsizes : ∀ algorithm error,
      Alltoall.pattern algorithm spec.request (sizesOf algorithm) spec.commSize = .error error ↔
        algorithm = .windowed ∧ spec.windowSize = 0 ∧ error = .zeroWindow)
    (hyields : ∀ algorithm,
      (Alltoall.pattern algorithm spec.request (sizesOf algorithm)).Yields spec.commSize ranks
        (next algorithm)) :
    spec.Verdict ranks (named spec.alltoallAlgorithm next) := by
  have hobjection := fun place error => @h.objection_alltoall _ _ place error hexchanges
  rcases spec.alltoallAlgorithm_cases with ⟨algorithm, halgorithm, hknown⟩ |
    ⟨name, hname, hrefused, hunknown⟩
  · rw [halgorithm, named]
    cases hpattern : Alltoall.pattern algorithm spec.request (sizesOf algorithm) spec.commSize with
    | error error =>
      rw [(hyields algorithm).refused error hpattern]
      obtain ⟨rfl, hzero, rfl⟩ := (hsizes algorithm error).1 hpattern
      obtain ⟨name, hname⟩ := exists_name_of_windowed halgorithm
      refine .refused ⟨5, .zeroWindow h.parsed hexchanges hname (hknown name hname) hzero, ?_⟩
      intro earlier hearlier other hother
      rcases (hobjection _ _).1 hother with ⟨-, name, hname, hunknown, -⟩ | ⟨rfl, -⟩
      · exact hunknown _ (hknown name hname)
      · exact absurd hearlier (Nat.lt_irrefl 5)
    | ok plans =>
      obtain ⟨s, hs, hranks⟩ := (hyields algorithm).built plans hpattern
      rw [hs]
      refine .built (fun place error hother => ?_) hranks
      rcases (hobjection _ _).1 hother with ⟨-, name, hname, hunknown, -⟩ |
        ⟨-, ⟨name, hname, hwindowed⟩, hzero, -⟩
      · exact hunknown _ (hknown name hname)
      · cases (hknown name hname).symm.trans hwindowed
        cases hpattern.symm.trans ((hsizes .windowed .zeroWindow).2 ⟨rfl, hzero, rfl⟩)
  · rw [hrefused, named]
    exact .of_second h (.unknownAlltoall h.parsed hexchanges hname (by simp [hunknown]))

/-- The ranks of the schedule: those of all groups, if there are groups. -/
def rankTotal (spec : Spec) (family : Family) : Nat :=
  if family.isGrouped then spec.groupCount * spec.commSize else spec.commSize

theorem Ready.verdict (h : spec.Ready family) (entropy : Random.Words) :
    spec.Verdict (spec.rankTotal family) (spec.build entropy) := by
  have hready : ¬(spec.commSize = 0 ∨ (family.isGrouped ∧ spec.groupCount = 0)) := by
    rintro (hzero | ⟨hgrouped, hzero⟩)
    · exact h.ranks.ne' hzero
    · exact (h.groups hgrouped).ne' hzero
  rw [build, h.parsed]
  simp only [named, if_neg hready]
  cases family with
  | binomialTree => exact h.verdict_tree
  | dissemination => exact h.verdict_dissemination
  | allreduce =>
    exact h.verdict_allreduce (Or.inl rfl) fun algorithm =>
      (Builder.coherent_allreduce algorithm spec.reduction).yields h.ranks
  | alltoall =>
    exact h.verdict_alltoall (Or.inl rfl)
      (fun algorithm _ => Alltoall.pattern_drawn_eq_error algorithm spec.request
        (spec.words entropy) spec.commSize 0)
      fun algorithm => (Builder.coherent_alltoall algorithm spec.request _).yields h.ranks
  | multiAllreduce =>
    exact h.verdict_allreduce (Or.inr rfl) fun algorithm =>
      Groups.yields_allreduce (h.groups rfl) h.ranks algorithm spec.reduction
  | multiAlltoall =>
    exact h.verdict_alltoall (Or.inr rfl)
      (fun algorithm _ => Alltoall.pattern_drawn_eq_error algorithm spec.request
        (spec.words entropy) spec.commSize 0)
      fun algorithm => Groups.yields_alltoall (h.groups rfl) h.ranks algorithm spec.request
        (spec.words entropy)

/-- A description that is not ready is refused before its names are looked at. -/
theorem ready_or_refused (spec : Spec) :
    (∃ family, spec.Ready family) ∨
      ∃ error, spec.RefusedFor error ∧ ∀ entropy, spec.build entropy = .error (.refused error) := by
  rcases Family.parse_cases spec.collective with ⟨family, hfamily⟩ | hunknown
  · by_cases hempty : spec.commSize = 0 ∨ (family.isGrouped ∧ spec.groupCount = 0)
    · refine Or.inr ⟨.emptyCommunicator, ⟨1, ?_, ?_⟩, fun entropy => ?_⟩
      · rcases hempty with hzero | ⟨hgrouped, hzero⟩
        · exact .noRanks hzero
        · exact .noGroups hfamily hgrouped hzero
      · intro earlier hearlier other hother
        obtain rfl : earlier = 0 := Nat.lt_one_iff.1 hearlier
        cases hother with
        | unknownCollective hunknown => exact hunknown family hfamily
      · rw [build, hfamily]
        simp only [named, if_pos hempty]
    · refine Or.inl ⟨family, hfamily, Nat.pos_of_ne_zero fun hzero => hempty (Or.inl hzero), ?_⟩
      exact fun hgrouped => Nat.pos_of_ne_zero fun hzero => hempty (Or.inr ⟨hgrouped, hzero⟩)
  · refine Or.inr ⟨_, ⟨0, .unknownCollective (by simp [hunknown]), ?_⟩, fun entropy => ?_⟩
    · exact fun earlier hearlier => absurd hearlier (Nat.not_lt_zero earlier)
    · rw [build, hunknown, named]

theorem refused_or_built (spec : Spec) (entropy : Random.Words) :
    (∃ error, spec.RefusedFor error ∧ spec.build entropy = .error (.refused error)) ∨
      ∃ family s, Family.parse spec.collective = .ok family ∧ spec.build entropy = .ok s ∧
        (∀ place error, ¬spec.Objection place error) ∧ s.rankCount = spec.rankTotal family := by
  rcases spec.ready_or_refused with ⟨family, hready⟩ | ⟨error, hrefused, hbuild⟩
  · have hverdict := hready.verdict entropy
    cases hbuild : spec.build entropy with
    | error failure =>
      rw [hbuild] at hverdict
      cases hverdict with
      | refused hrefused => exact Or.inl ⟨_, hrefused, rfl⟩
    | ok s =>
      rw [hbuild] at hverdict
      cases hverdict with
      | built hnone hranks => exact Or.inr ⟨family, s, hready.parsed, rfl, hnone, hranks⟩
  · exact Or.inl ⟨error, hrefused, hbuild entropy⟩

theorem Objection.unique {other : Error} (h : spec.Objection place error)
    (hother : spec.Objection place other) : error = other := by
  cases h with
  | unknownCollective | notPowerOfTwo | lastTag | zeroWindow => cases hother; rfl
  | noRanks | noGroups => cases hother <;> rfl
  | unknownDirection hfamily hname =>
    cases hother with
    | unknownDirection _ hname' => rw [Option.some.inj (hname.symm.trans hname')]
    | unknownAllreduce hfamily' hreduces =>
      cases hfamily.symm.trans hfamily'
      exact absurd hreduces Family.not_reduces_tree
    | unknownAlltoall hfamily' hexchanges =>
      cases hfamily.symm.trans hfamily'
      exact absurd hexchanges Family.not_exchanges_tree
  | unknownAllreduce hfamily hreduces hname =>
    cases hother with
    | unknownDirection hfamily' =>
      cases hfamily.symm.trans hfamily'
      exact absurd hreduces Family.not_reduces_tree
    | unknownAllreduce _ _ hname' => rw [Option.some.inj (hname.symm.trans hname')]
    | unknownAlltoall hfamily' hexchanges =>
      cases hfamily.symm.trans hfamily'
      exact absurd hexchanges hreduces.not_exchanges
  | unknownAlltoall hfamily hexchanges hname =>
    cases hother with
    | unknownDirection hfamily' =>
      cases hfamily.symm.trans hfamily'
      exact absurd hexchanges Family.not_exchanges_tree
    | unknownAllreduce hfamily' hreduces =>
      cases hfamily.symm.trans hfamily'
      exact absurd hexchanges hreduces.not_exchanges
    | unknownAlltoall _ _ hname' => rw [Option.some.inj (hname.symm.trans hname')]

theorem RefusedFor.unique {other : Error} (h : spec.RefusedFor error)
    (hother : spec.RefusedFor other) : error = other :=
  eq_of_first spec.Objection Objection.unique h hother

/-- An all-to-all reads the window only if it is windowed, and words only if it is unbalanced. -/
theorem exchange_congr {other : Spec} {entropy entropy' : Random.Words}
    {algorithm : Alltoall.Algorithm} (halgorithm : spec.alltoallAlgorithm = .ok algorithm)
    (hsize : spec.datasize = other.datasize) (htag : spec.tag = other.tag)
    (hsame : ∀ field ∈ spec.exchangeFields, spec.SameIn other field)
    (hentropy : .seed ∈ spec.exchangeFields → spec.seed = none → entropy' = entropy) :
    (∀ sizes, Alltoall.pattern algorithm other.request sizes =
      Alltoall.pattern algorithm spec.request sizes) ∧
    Alltoall.drawSizes algorithm other.request (other.words entropy') =
      Alltoall.drawSizes algorithm spec.request (spec.words entropy) := by
  rw [exchangeFields, halgorithm] at hsame hentropy
  cases algorithm with
  | windowed =>
    have hwindow : spec.windowSize = other.windowSize := by simpa [SameIn] using hsame
    exact ⟨fun sizes => by rw [request, request, hsize, htag, hwindow], rfl⟩
  | balanced =>
    refine ⟨fun sizes => ?_, rfl⟩
    unfold Alltoall.pattern Alltoall.balanced request
    rw [hsize, htag]
  | unbalanced =>
    have hseed : spec.seed = other.seed := by simpa [SameIn] using hsame
    have hwords : other.words entropy' = spec.words entropy := by
      rw [words, words, ← hseed]
      cases hnone : spec.seed with
      | none => exact hentropy (by simp) hnone
      | some seed => rfl
    constructor
    · intro sizes
      unfold Alltoall.pattern Alltoall.unbalanced request
      rw [htag]
    · unfold Alltoall.drawSizes request
      rw [hwords, hsize]

theorem named_ok {α : Type} (a : α) (next : α → Except Failure Schedule) :
    named (.ok a) next = next a := rfl

/-- Whatever is made of an all-to-all depends on the fields it reads. -/
theorem named_exchange_congr {other : Spec} {entropy entropy' : Random.Words}
    (hname : spec.algorithm = other.algorithm) (hsize : spec.datasize = other.datasize)
    (htag : spec.tag = other.tag) (hsame : ∀ field ∈ spec.exchangeFields, spec.SameIn other field)
    (hentropy : .seed ∈ spec.exchangeFields → spec.seed = none → entropy' = entropy)
    {next next' : Alltoall.Algorithm → Except Failure Schedule}
    (hnext : ∀ algorithm,
      (∀ sizes, Alltoall.pattern algorithm other.request sizes =
        Alltoall.pattern algorithm spec.request sizes) →
      Alltoall.drawSizes algorithm other.request (other.words entropy') =
        Alltoall.drawSizes algorithm spec.request (spec.words entropy) →
      next' algorithm = next algorithm) :
    named other.alltoallAlgorithm next' = named spec.alltoallAlgorithm next := by
  have hchoice : other.alltoallAlgorithm = spec.alltoallAlgorithm := by
    rw [alltoallAlgorithm, alltoallAlgorithm, hname]
  rw [hchoice]
  cases halgorithm : spec.alltoallAlgorithm with
  | error error => rfl
  | ok algorithm =>
    obtain ⟨hpattern, hdraw⟩ := exchange_congr halgorithm hsize htag hsame hentropy
    exact hnext algorithm hpattern hdraw

/-- Only the fields that the family and the algorithm read matter. -/
theorem build_congr {other : Spec} {entropy entropy' : Random.Words}
    (hsame : ∀ field ∈ spec.fields, spec.SameIn other field)
    (hentropy : .seed ∈ spec.fields → spec.seed = none → entropy' = entropy) :
    other.build entropy' = spec.build entropy := by
  cases hfamily : Family.parse spec.collective with
  | error error =>
    simp only [fields, hfamily, List.forall_mem_cons, SameIn] at hsame
    rw [build, build, ← hsame.1, hfamily, named]
    rfl
  | ok family =>
    cases family with
    | binomialTree =>
      simp only [fields, hfamily, List.forall_mem_cons, SameIn] at hsame
      obtain ⟨hcollective, hranks, hsize, htag, hdirection, -⟩ := hsame
      simp [build, treeDirection, ← hcollective, ← hranks, ← hsize, ← htag, ← hdirection,
        hfamily, named, Family.isGrouped]
    | dissemination =>
      simp only [fields, hfamily, List.forall_mem_cons, SameIn] at hsame
      obtain ⟨hcollective, hranks, hsize, htag, -⟩ := hsame
      simp [build, ← hcollective, ← hranks, ← hsize, ← htag, hfamily, named, Family.isGrouped]
    | allreduce =>
      simp only [fields, hfamily, List.forall_mem_cons, SameIn] at hsame
      obtain ⟨hcollective, halgorithm, hranks, hsize, htag, hcost, -⟩ := hsame
      simp [build, allreduceAlgorithm, reduction, ← hcollective, ← halgorithm, ← hranks, ← hsize,
        ← htag, ← hcost, hfamily, named, Family.isGrouped]
    | multiAllreduce =>
      simp only [fields, hfamily, List.forall_mem_cons, SameIn] at hsame
      obtain ⟨hcollective, halgorithm, hranks, hgroups, hsize, htag, hcost, -⟩ := hsame
      simp [build, allreduceAlgorithm, reduction, ← hcollective, ← halgorithm, ← hranks, ← hgroups,
        ← hsize, ← htag, ← hcost, hfamily, named, Family.isGrouped]
    | alltoall =>
      simp only [fields, hfamily, List.cons_append, List.nil_append, List.forall_mem_cons,
        SameIn] at hsame
      obtain ⟨hcollective, hname, hranks, hsize, htag, hexchange⟩ := hsame
      have hseed : .seed ∈ spec.exchangeFields → spec.seed = none → entropy' = entropy :=
        fun hmem => hentropy (by simp [fields, hfamily, hmem])
      simp only [build, ← hcollective, ← hranks, hfamily, named_ok, Family.isGrouped,
        Bool.false_eq_true, false_and, or_false]
      apply if_congr Iff.rfl rfl
      apply named_exchange_congr hname hsize htag hexchange hseed
      intro algorithm hpattern hdraw
      rw [hpattern, hdraw]
    | multiAlltoall =>
      simp only [fields, hfamily, List.cons_append, List.nil_append, List.forall_mem_cons,
        SameIn] at hsame
      obtain ⟨hcollective, hname, hranks, hgroups, hsize, htag, hexchange⟩ := hsame
      have hseed : .seed ∈ spec.exchangeFields → spec.seed = none → entropy' = entropy :=
        fun hmem => hentropy (by simp [fields, hfamily, hmem])
      simp only [build, ← hcollective, ← hranks, ← hgroups, hfamily, named_ok]
      apply if_congr Iff.rfl rfl
      apply named_exchange_congr hname hsize htag hexchange hseed
      intro algorithm hpattern hdraw
      simp only [Groups.alltoall, hpattern, hdraw]

/-- A description is refused exactly for its first objection, with the name that was given in the
refusal; without objections a schedule is built, which has as many ranks as a communicator, times
the groups if there are groups. Descriptions that agree in the fields that family and algorithm read
come to the same, and only an unbalanced all-to-all without a seed asks for entropy. -/
theorem built_or_refused (spec : Spec) (entropy : Random.Words) :
    (∀ failure, spec.build entropy = .error failure ↔
      ∃ error, failure = .refused error ∧ spec.RefusedFor error) ∧
    ((∀ error, ¬spec.RefusedFor error) →
      ∃ family s, Family.parse spec.collective = .ok family ∧ spec.build entropy = .ok s ∧
        s.rankCount = spec.rankTotal family) ∧
    ∀ (other : Spec) (entropy' : Random.Words),
      (∀ field ∈ spec.fields, spec.SameIn other field) →
      (.seed ∈ spec.fields → spec.seed = none → entropy' = entropy) →
      other.build entropy' = spec.build entropy := by
  refine ⟨fun failure => ?_, fun hnone => ?_, fun other entropy' => build_congr⟩
  · rcases spec.refused_or_built entropy with ⟨error, hrefused, hbuild⟩ |
      ⟨family, s, -, hbuild, hnone, -⟩
    · rw [hbuild]
      constructor
      · rintro ⟨⟩
        exact ⟨error, rfl, hrefused⟩
      · rintro ⟨other, rfl, hother⟩
        rw [hrefused.unique hother]
    · rw [hbuild]
      constructor
      · rintro ⟨⟩
      · rintro ⟨other, -, place, hobjection, -⟩
        exact absurd hobjection (hnone place other)
  · rcases spec.refused_or_built entropy with ⟨error, hrefused, -⟩ |
      ⟨family, s, hfamily, hbuild, -, hranks⟩
    · exact absurd hrefused (hnone error)
    · exact ⟨family, s, hfamily, hbuild, hranks⟩

/-- Two groups of three ranks exchange under a window; a direction, a cost and a seed beside it
change nothing. Six ranks cannot double, and that is said before the tag is looked at. -/
theorem built_or_refused_six :
    let words : Random.Words := fun _ => 0
    let spec : Spec :=
      { collective := " Multi_AllToAll", algorithm := some "windowed", commSize := 3, datasize := 8,
        windowSize := 2, groupCount := 2 }
    let other : Spec := { spec with direction := some "up", computeTime := 7, seed := some 1 }
    let six : Spec := { collective := "all-reduce", commSize := 6, datasize := 8, tag := Tag.last }
    (∃ s, spec.build words = .ok s ∧ s.rankCount = 6) ∧
      other.build words = spec.build words ∧
      six.RefusedFor (.notPowerOfTwo 6) ∧
      six.build words = .error (.refused (.notPowerOfTwo 6)) := by
  intro words spec other six
  obtain ⟨-, hbuilt, hcongr⟩ := built_or_refused spec words
  have hfamily : Family.parse spec.collective = .ok .multiAlltoall := by decide
  have hfields : spec.fields = [.collective, .algorithm, .commSize, .groupCount, .datasize, .tag,
      .windowSize] := by decide
  have hready : spec.Ready .multiAlltoall := ⟨hfamily, by decide, fun _ => by decide⟩
  have hnone : ∀ error, ¬spec.RefusedFor error := by
    rintro error ⟨place, hobjection, -⟩
    rcases (hready.objection_alltoall (Or.inr rfl)).1 hobjection with
      ⟨-, name, hname, hunknown, -⟩ | ⟨-, -, hzero, -⟩
    · cases hname
      exact hunknown .windowed (by decide)
    · cases hzero
  have hsix : six.build words = .error (.refused (.notPowerOfTwo 6)) := by decide
  refine ⟨?_, hcongr other words ?_ fun _ _ => rfl, ?_, hsix⟩
  · obtain ⟨family, s, hparsed, hs, hranks⟩ := hbuilt hnone
    cases hfamily.symm.trans hparsed
    exact ⟨s, hs, hranks⟩
  · rw [hfields]
    simp [SameIn, spec, other]
  · obtain ⟨error, herror, hfirst⟩ := ((built_or_refused six words).1 _).1 hsix
    cases herror
    exact hfirst

end Spec
end Collectives
