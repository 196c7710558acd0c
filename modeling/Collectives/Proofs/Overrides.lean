import Collectives.Proofs.CommandRuns
import Collectives.Proofs.Presentations

/-!
# Flags over files

A description may come from flags, from a file, or from both, and then flags come first. It does not
matter which of its fields come from where: the description is the same, and so is what is made of
it.
-/

namespace Collectives

/-- Descriptions that agree in all fields are equal. -/
theorem Spec.eq_of_content {spec other : Spec}
    (h : ∀ field, spec.content field = other.content field) : spec = other := by
  have hcollective : spec.collective = other.collective := h .collective
  have halgorithm : spec.algorithm = other.algorithm := h .algorithm
  have hcommSize : spec.commSize = other.commSize := h .commSize
  have hdatasize : spec.datasize = other.datasize := h .datasize
  have htag : spec.tag = other.tag := h .tag
  have hdirection : spec.direction = other.direction := h .direction
  have hwindowSize : spec.windowSize = other.windowSize := h .windowSize
  have hgroupCount : spec.groupCount = other.groupCount := h .groupCount
  have hcomputeTime : spec.computeTime = other.computeTime := h .computeTime
  have hseed : spec.seed = other.seed := h .seed
  cases spec
  cases other
  simp_all

namespace Command

theorem naturalBelow?_lt {bound n : Nat} {cs : List Char} (h : naturalBelow? bound cs = some n) :
    n < bound := by
  simp only [naturalBelow?] at h
  split_ifs at h with hdigits hbound
  obtain rfl := Option.some.inj h
  exact hbound

namespace Flags

/-- What flags give a field. -/
def given (flags : Flags) : (field : Spec.Field) → Option field.Content
  | .collective => flags.collective
  | .algorithm => flags.algorithm.map some
  | .commSize => flags.commSize
  | .datasize => flags.datasize
  | .tag => flags.tag
  | .direction => flags.direction.map some
  | .windowSize => flags.windowSize
  | .groupCount => flags.groupCount
  | .computeTime => flags.computeTime
  | .seed => flags.seed.map some

/-- Whether the numbers that flags give have 64 bits. -/
structure InRange (flags : Flags) : Prop where
  commSize : ∀ n ∈ flags.commSize, n < UInt64.size
  datasize : ∀ n ∈ flags.datasize, n < UInt64.size
  windowSize : ∀ n ∈ flags.windowSize, n < UInt64.size
  groupCount : ∀ n ∈ flags.groupCount, n < UInt64.size
  computeTime : ∀ n ∈ flags.computeTime, n < UInt64.size
  seed : ∀ n ∈ flags.seed, n < UInt64.size

/-- Whether `part` gives some of the fields that `flags` give, with a trace to the same end. -/
structure PartOf (part flags : Flags) : Prop where
  given : ∀ field, part.given field = flags.given field ∨ part.given field = none
  format : part.format = flags.format
  output : part.output = flags.output

/-- Whether the text of a file supplies what flags leave out of `spec`, when only `part` of them is
kept: it holds the fields that the flags gave and none is kept, or it is read as a description that
agrees with `spec` in all fields that are not given any more. -/
inductive Supplies (flags part : Flags) (spec : Spec) : String → Prop
  | whole {fields : List Spec.Field} {before cs after : List Char} (hrange : flags.InRange)
      (hnone : ∀ field, part.given field = none) (hnodup : fields.Nodup)
      (hfields : ∀ field, field ∈ fields ↔ (flags.given field).isSome)
      (hbefore : Json.Blanks before) (hshows : spec.Shows fields cs) (hafter : Json.Blanks after) :
      Supplies flags part spec (.ofList (before ++ (cs ++ after)))
  | rest {text : String} {other : Spec} (hread : Spec.read text = .ok other)
      (hsame : ∀ field, part.given field = none → other.content field = spec.content field) :
      Supplies flags part spec text

variable {flags part : Flags} {spec : Spec}

/-- A flag comes before the field that it is for. -/
theorem content_override (flags : Flags) (spec : Spec) (field : Spec.Field) :
    (flags.override spec).content field = (flags.given field).getD (spec.content field) := by
  cases field with
  | collective | commSize | datasize | tag | windowSize | groupCount | computeTime => rfl
  | algorithm =>
    change flags.algorithm.or spec.algorithm = (flags.algorithm.map some).getD spec.algorithm
    cases flags.algorithm <;> rfl
  | direction =>
    change flags.direction.or spec.direction = (flags.direction.map some).getD spec.direction
    cases flags.direction <;> rfl
  | seed =>
    change flags.seed.or spec.seed = (flags.seed.map some).getD spec.seed
    cases flags.seed <;> rfl

theorem content_override_of_some {field : Spec.Field} {value : field.Content}
    (h : flags.given field = some value) : (flags.override spec).content field = value := by
  rw [content_override, h, Option.getD_some]

theorem getD_lt {bound default : Nat} {n? : Option Nat} (h : ∀ n ∈ n?, n < bound)
    (hdefault : default < bound) : n?.getD default < bound := by
  cases n? with
  | none => exact hdefault
  | some n => exact h n rfl

theorem InRange.override (h : flags.InRange) (hspec : spec.InRange) :
    (flags.override spec).InRange where
  commSize := getD_lt h.commSize hspec.commSize
  datasize := getD_lt h.datasize hspec.datasize
  windowSize := getD_lt h.windowSize hspec.windowSize
  groupCount := getD_lt h.groupCount hspec.groupCount
  computeTime := getD_lt h.computeTime hspec.computeTime
  seed := by
    intro seed hseed
    rcases Option.or_eq_some_iff.1 hseed with hflag | ⟨-, hfield⟩
    · exact h.seed seed hflag
    · exact hspec.seed seed hfield

theorem InRange.give (h : flags.InRange) {flag : Flag} {value : String} {more : Flags}
    (hgive : flags.give flag value = some more) : more.InRange := by
  obtain ⟨hcommSize, hdatasize, hwindowSize, hgroupCount, hcomputeTime, hseed⟩ := h
  have hword : ∀ n, naturalBelow? UInt64.size value.toList = some n →
      ∀ m ∈ some n, m < UInt64.size := by
    intro n hn m hm
    obtain rfl : n = m := Option.some.inj hm
    exact naturalBelow?_lt hn
  cases flag <;> simp only [Flags.give, Option.map_eq_some_iff, Option.some.injEq] at hgive
  case collective | algorithm | direction | format =>
    subst hgive
    constructor <;> assumption
  case config | tag | output =>
    obtain ⟨_, -, rfl⟩ := hgive
    constructor <;> assumption
  all_goals
    obtain ⟨n, hn, rfl⟩ := hgive
    have hn := hword n hn
    constructor <;> assumption

theorem inRange_of_ofArguments (h : flags.InRange) {arguments : List String} {given : Flags}
    (hparse : Request.ofArguments flags arguments = .compile given) : given.InRange := by
  fun_induction Request.ofArguments flags arguments <;> simp_all
  -- the value stands behind the equals sign or in the next argument
  case case8 hgive _ ih => exact ih (h.give hgive)
  case case10 hgive _ ih => exact ih (h.give hgive)

/-- Three flags make a description in which all other fields are at their defaults. -/
theorem exists_start
    (hgiven : ∀ field ∈ [.collective, .commSize, .datasize], (flags.given field).isSome) :
    ∃ start : Spec, flags.spec = .ok (flags.override start) ∧ (flags.InRange → start.InRange) ∧
      ∀ field, flags.given field = none → start.IsDefault field := by
  have hsome : flags.collective.isSome ∧ flags.commSize.isSome ∧ flags.datasize.isSome :=
    ⟨hgiven .collective (by decide), hgiven .commSize (by decide), hgiven .datasize (by decide)⟩
  simp only [Option.isSome_iff_exists] at hsome
  obtain ⟨⟨collective, hcollective⟩, ⟨commSize, hcommSize⟩, datasize, hdatasize⟩ := hsome
  refine ⟨{ collective, commSize, datasize }, ?_, fun hrange => ?_, fun field hnone => ?_⟩
  · rw [Flags.spec, hcollective, hcommSize, hdatasize]
  · have hzero : 0 < UInt64.size := by decide
    have hone : 1 < UInt64.size := by decide
    exact ⟨hrange.commSize _ hcommSize, hrange.datasize _ hdatasize, hone, hone, hzero, by simp⟩
  · cases field with
    | collective => cases hcollective.symm.trans hnone
    | commSize => cases hcommSize.symm.trans hnone
    | datasize => cases hdatasize.symm.trans hnone
    | algorithm | tag | direction | windowSize | groupCount | computeTime | seed => rfl

/-- A field that no flag gives stays at its default. -/
theorem isDefault_override {field : Spec.Field} (hnone : flags.given field = none)
    (hdefault : spec.IsDefault field) : (flags.override spec).IsDefault field := by
  have hcontent := flags.content_override spec field
  rw [hnone, Option.getD_none] at hcontent
  cases field with
  | collective | commSize | datasize => exact hdefault
  | algorithm | tag | direction | windowSize | groupCount | computeTime | seed =>
    exact hcontent.trans hdefault

/-- What a file supplies is read as a description that agrees with `spec` where nothing is given. -/
theorem Supplies.exists_read {text : String} (h : Supplies flags part spec text)
    (hrange : flags.InRange → spec.InRange)
    (hdefault : ∀ field, flags.given field = none → spec.IsDefault field) :
    ∃ other, Spec.read text = .ok other ∧
      ∀ field, part.given field = none → other.content field = spec.content field := by
  cases h with
  | rest hread hsame => exact ⟨_, hread, hsame⟩
  | @whole fields _ _ _ hflags _ hnodup hfields hbefore hshows hafter =>
    have hleft : ∀ field, field ∉ fields → spec.IsDefault field := by
      intro field hnot
      apply hdefault
      rwa [hfields, Option.not_isSome_iff_eq_none] at hnot
    refine ⟨spec, ?_, fun _ _ => rfl⟩
    exact Spec.read_eq_of_presents (hrange hflags) (.object hnodup hleft hshows) hbefore hafter

/-- What is kept of the flags makes up for what another description says where it is given. -/
theorem PartOf.override_eq {other : Spec} (h : part.PartOf flags)
    (hspec : ∀ field value, flags.given field = some value → spec.content field = value)
    (hsame : ∀ field, part.given field = none → other.content field = spec.content field) :
    part.override other = spec := by
  apply Spec.eq_of_content
  intro field
  cases hgiven : part.given field with
  | none => rw [content_override, hgiven, Option.getD_none, hsame field hgiven]
  | some value =>
    rcases h.given field with heq | hnone
    · rw [content_override_of_some hgiven, hspec field value (heq ▸ hgiven)]
    · rw [hnone] at hgiven
      cases hgiven

end Flags

/-- A command line gives numbers of 64 bits only. -/
theorem Request.inRange_of_parse {arguments : List String} {flags : Flags}
    (hparse : parse arguments = .compile flags) : flags.InRange :=
  Flags.inRange_of_ofArguments ⟨by simp, by simp, by simp, by simp, by simp, by simp⟩ hparse

variable {σ : Type} {host : Host (StateM σ)} {flags other : Flags}

theorem load_of_read (hsteady : host.Steady) {path text : String} {spec : Spec} {s : σ}
    (hconfig : flags.config = some path) (hcontent : (host.setting s).content path = .ok text)
    (hread : Spec.read text = .ok spec) : load host flags s = (.ok (flags.override spec), s) := by
  rw [load_file hsteady hconfig, hcontent]
  simp only [Flags.specFrom, hread]

/-- What a run does depends on the format, the output and the description. -/
theorem compile_congr (hformat : flags.format = other.format)
    (houtput : flags.output = other.output)
    {s : σ} (hload : load host flags s = load host other s) :
    compile host flags s = compile host other s := by
  have hemit : ∀ text, emit host flags text = emit host other text := by
    intro text
    rw [emit_eq, emit_eq, houtput]
  rw [compile, compile, hformat]
  cases Trace.Format.parse (other.format.getD "goal") with
  | error error => rfl
  | ok format => simp only [bind, StateT.bind, hload, hemit]

/-- Flags and files agree. With a file, a description has what flags give, and the file's fields
elsewhere. Flags alone, the three that are needed among them, come to one description: any part of
them comes to it too, and to the same trace, together with a file that supplies what is left out. -/
theorem mixtures_agree (hsteady : host.Steady) (flags : Flags) (s : σ) :
    (∀ path text spec, flags.config = some path → (host.setting s).content path = .ok text →
      Spec.read text = .ok spec →
        ∃ mixed, load host flags s = (.ok mixed, s) ∧
          ∀ field, mixed.content field = (flags.given field).getD (spec.content field)) ∧
    (flags.config = none →
      (∀ field ∈ [.collective, .commSize, .datasize], (flags.given field).isSome) →
        ∃ spec, load host flags s = (.ok spec, s) ∧
          (∀ field value, flags.given field = some value → spec.content field = value) ∧
          (∀ field, flags.given field = none → spec.IsDefault field) ∧
          ∀ part path text, part.PartOf flags → part.config = some path →
            (host.setting s).content path = .ok text → flags.Supplies part spec text →
              load host part s = (.ok spec, s) ∧ compile host part s = compile host flags s) := by
  constructor
  · intro path text spec hconfig hcontent hread
    exact ⟨flags.override spec, load_of_read hsteady hconfig hcontent hread,
      flags.content_override spec⟩
  · intro hconfig hgiven
    obtain ⟨start, hspec, hstart, hdefaults⟩ := Flags.exists_start hgiven
    have hload : load host flags s = (.ok (flags.override start), s) := by
      rw [load_bare hconfig, hspec]
    have hrange := fun hflags : flags.InRange => hflags.override (hstart hflags)
    have hvalue : ∀ field value, flags.given field = some value →
        (flags.override start).content field = value :=
      fun _ _ => Flags.content_override_of_some
    have hdefault : ∀ field, flags.given field = none → (flags.override start).IsDefault field :=
      fun field hnone => Flags.isDefault_override hnone (hdefaults field hnone)
    refine ⟨_, hload, hvalue, hdefault, ?_⟩
    intro part path text hpart hfile hcontent hsupplies
    obtain ⟨rest, hread, hsame⟩ := hsupplies.exists_read hrange hdefault
    have hpartial : load host part s = (.ok (flags.override start), s) := by
      rw [load_of_read hsteady hfile hcontent hread, hpart.override_eq hvalue hsame]
    exact ⟨hpartial, compile_congr hpart.format hpart.output (hpartial.trans hload.symm)⟩

/-- A tree of two ranks with a tag: from flags alone, and from a file for three ranks together with
two of the flags. -/
theorem mixtures_agree_two :
    let description :=
      "\x7b\"collective\": \"binomialtree\", \"comm_size\": 3, \"datasize\": 8\x7d"
    let d : Directory := { path := "", files := [("o", description.toUTF8)] }
    let alone :=
      ["--collective", "binomialtree", "--comm-size", "2", "--datasize", "8", "--tag", "5"]
    let mixed := ["--comm-size", "2", "--tag", "5", "--config", "/o"]
    ∃ flags part, Request.parse alone = .compile flags ∧ Request.parse mixed = .compile part ∧
      Directory.host.Steady ∧ flags.InRange ∧ part.PartOf flags ∧
      (load Directory.host flags d).1 =
        .ok { collective := "binomialtree", commSize := 2, datasize := 8, tag := 5 } ∧
      load Directory.host part d = load Directory.host flags d ∧
      compile Directory.host part d = compile Directory.host flags d := by
  intro description d alone mixed
  let flags : Flags :=
    { collective := some "binomialtree", commSize := some 2, datasize := some 8, tag := some 5 }
  let part : Flags := { config := some "/o", commSize := some 2, tag := some 5 }
  have halone : Request.parse alone = .compile flags := by decide
  have hmixed : Request.parse mixed = .compile part := by decide
  have hpart : part.PartOf flags := by
    refine ⟨fun field => ?_, rfl, rfl⟩
    cases field with
    | commSize | tag => exact Or.inl rfl
    | collective | datasize | algorithm | direction => exact Or.inr rfl
    | windowSize | groupCount | computeTime | seed => exact Or.inr rfl
  have hcontent : (Directory.host.setting d).content "/o" = .ok description :=
    Directory.read_here (Directory.locate_root rfl) (by decide) (by decide) rfl
  have hread : Spec.read description =
      .ok { collective := "binomialtree", commSize := 3, datasize := 8 } := by decide +kernel
  have hgiven : ∀ field ∈ [.collective, .commSize, .datasize], (flags.given field).isSome := by
    decide
  obtain ⟨-, hmixtures⟩ := mixtures_agree Directory.host_steady flags d
  obtain ⟨spec, hload, -, -, hsame⟩ := hmixtures rfl hgiven
  have hspec : spec = { collective := "binomialtree", commSize := 2, datasize := 8, tag := 5 } := by
    rw [load_bare rfl] at hload
    exact (Except.ok.inj (congrArg Prod.fst hload)).symm
  have hsupplies : flags.Supplies part spec description := by
    refine .rest hread fun field hnone => ?_
    rw [hspec]
    cases field with
    | commSize | tag => cases hnone
    | collective | datasize | algorithm | direction => rfl
    | windowSize | groupCount | computeTime | seed => rfl
  obtain ⟨hpartial, hcompile⟩ := hsame part "/o" description hpart rfl hcontent hsupplies
  refine ⟨flags, part, halone, hmixed, Directory.host_steady, Request.inRange_of_parse halone,
    hpart, ?_, ?_, hcompile⟩
  · rw [hload, hspec]
  · rw [hpartial, hload]

end Command
end Collectives
