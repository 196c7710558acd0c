import Collectives.Command.Directory
import Collectives.Proofs.Acceptance
import Collectives.Proofs.Sinks

/-!
# Runs of the command

A run goes through its stages in order: the format, the description and what it has to hold, the
schedule. It stops at the first stage with something in the way, says what that is and leaves
everything as it was; with nothing in the way, the whole trace goes out at once. A host is only
trusted with what a run relies on: to read is to change nothing, and what takes the trace keeps it.
-/

namespace Collectives

theorem Trace.Format.parse_cases (name : String) :
    (∃ format, Format.parse name = .ok format) ∨
      Format.parse name = .error (.unknownFormat name) := by
  unfold Format.parse
  split <;> simp

namespace Command

/-- What a run finds: the files, and words to draw from. -/
structure Setting where
  content : String → Except FileProblem String
  words : Random.Words

namespace Setting

variable {setting : Setting} {flags : Flags} {place : Nat} {stop : Stop}

/-- The description that flags come to, from a file or on their own. -/
inductive Loads (setting : Setting) (flags : Flags) : Spec → Prop where
  | file {path text : String} {spec : Spec} (hconfig : flags.config = some path)
      (hcontent : setting.content path = .ok text) (hread : Spec.read text = .ok spec) :
      Loads setting flags (flags.override spec)
  | bare {collective : String} {commSize datasize : Nat} (hconfig : flags.config = none)
      (hcollective : flags.collective = some collective)
      (hcommSize : flags.commSize = some commSize) (hdatasize : flags.datasize = some datasize) :
      Loads setting flags (flags.override { collective, commSize, datasize })

/-- What stands in the way of a trace, with the place of its stage among all stages. -/
inductive Obstacle (setting : Setting) (flags : Flags) : Nat → Stop → Prop where
  | unknownFormat (h : ∀ format, Trace.Format.parse (flags.format.getD "goal") ≠ .ok format) :
      Obstacle setting flags 0 (.format (.unknownFormat (flags.format.getD "goal")))
  | unreadable {path : String} {problem : FileProblem} (hconfig : flags.config = some path)
      (h : setting.content path = .error problem) :
      Obstacle setting flags 1 (.unreadable path problem)
  | unparsable {path text : String} {problem : Json.Problem} (hconfig : flags.config = some path)
      (hcontent : setting.content path = .ok text) (h : Spec.read text = .error problem) :
      Obstacle setting flags 2 (.unparsable path problem)
  | noCollective (hconfig : flags.config = none) (h : flags.collective = none) :
      Obstacle setting flags 1 (.missing .collective)
  | noCommSize (hconfig : flags.config = none) (h : flags.commSize = none) :
      Obstacle setting flags 2 (.missing .commSize)
  | noDatasize (hconfig : flags.config = none) (h : flags.datasize = none) :
      Obstacle setting flags 3 (.missing .datasize)
  | unbuildable {spec : Spec} {error : Error} (hloads : setting.Loads flags spec)
      (h : spec.build setting.words = .error (.refused error)) :
      Obstacle setting flags 4 (.unbuildable (.refused error))

/-- What a run stops for: the first obstacle. -/
def StopsFor (setting : Setting) (flags : Flags) (stop : Stop) : Prop :=
  ∃ place, setting.Obstacle flags place stop ∧
    ∀ earlier < place, ∀ other, ¬setting.Obstacle flags earlier other

theorem Loads.unique {spec other : Spec} (h : setting.Loads flags spec)
    (hother : setting.Loads flags other) : spec = other := by
  cases h with
  | file hconfig hcontent hread =>
    cases hother with
    | file hconfig' hcontent' hread' =>
      cases hconfig.symm.trans hconfig'
      cases hcontent.symm.trans hcontent'
      cases hread.symm.trans hread'
      rfl
    | bare hconfig' => cases hconfig.symm.trans hconfig'
  | bare hconfig hcollective hcommSize hdatasize =>
    cases hother with
    | file hconfig' => cases hconfig.symm.trans hconfig'
    | bare hconfig' hcollective' hcommSize' hdatasize' =>
      cases hcollective.symm.trans hcollective'
      cases hcommSize.symm.trans hcommSize'
      cases hdatasize.symm.trans hdatasize'
      rfl

/-- Once a description is loaded, only its format and its schedule can be in the way. -/
theorem Loads.place_eq {spec : Spec} (h : setting.Loads flags spec)
    (hobstacle : setting.Obstacle flags place stop) : place = 0 ∨ place = 4 := by
  cases h <;> cases hobstacle <;> simp_all

theorem Obstacle.unique {other : Stop} (h : setting.Obstacle flags place stop)
    (hother : setting.Obstacle flags place other) : stop = other := by
  cases h with
  | unknownFormat | noDatasize => cases hother; rfl
  | unreadable hconfig hcontent =>
    cases hother with
    | unreadable hconfig' hcontent' =>
      cases hconfig.symm.trans hconfig'
      cases hcontent.symm.trans hcontent'
      rfl
    | noCollective hconfig' => cases hconfig.symm.trans hconfig'
  | unparsable hconfig hcontent hread =>
    cases hother with
    | unparsable hconfig' hcontent' hread' =>
      cases hconfig.symm.trans hconfig'
      cases hcontent.symm.trans hcontent'
      cases hread.symm.trans hread'
      rfl
    | noCommSize hconfig' => cases hconfig.symm.trans hconfig'
  | noCollective hconfig =>
    cases hother with
    | unreadable hconfig' => cases hconfig.symm.trans hconfig'
    | noCollective => rfl
  | noCommSize hconfig =>
    cases hother with
    | unparsable hconfig' => cases hconfig.symm.trans hconfig'
    | noCommSize => rfl
  | unbuildable hloads hbuild =>
    cases hother with
    | unbuildable hloads' hbuild' =>
      cases hloads.unique hloads'
      cases hbuild.symm.trans hbuild'
      rfl

/-- A format, a description and a schedule are all that it takes. -/
theorem Loads.not_obstacle {spec : Spec} {format : Trace.Format} {schedule : Schedule}
    (hformat : Trace.Format.parse (flags.format.getD "goal") = .ok format)
    (hloads : setting.Loads flags spec) (hbuild : spec.build setting.words = .ok schedule)
    (place : Nat) (stop : Stop) : ¬setting.Obstacle flags place stop := by
  intro hobstacle
  rcases hloads.place_eq hobstacle with rfl | rfl
  · cases hobstacle with
    | unknownFormat h => exact h format hformat
  · cases hobstacle with
    | unbuildable hloads' hbuild' =>
      cases hloads.unique hloads'
      cases hbuild.symm.trans hbuild'

theorem StopsFor.unique {other : Stop} (h : setting.StopsFor flags stop)
    (hother : setting.StopsFor flags other) : stop = other :=
  eq_of_first (setting.Obstacle flags) Obstacle.unique h hother

end Setting

section Host

variable {σ : Type}

/-- To read files and to get words changes nothing. -/
structure Host.Steady (host : Host (StateM σ)) : Prop where
  read (path : String) (s : σ) : (host.read path s).2 = s
  entropy (s : σ) : (host.entropy s).2 = s

def Host.setting (host : Host (StateM σ)) (s : σ) : Setting where
  content path := (host.read path s).1
  words := (host.entropy s).1

/-- Sends a text to a file, or else to the screen. -/
def Host.send (host : Host (StateM σ)) (output : Option String) (text : String) :
    StateM σ (Except FileProblem Unit) :=
  match output with
  | none => host.print text
  | some path => host.write path text

/-- A text is where it was sent: at the end of the screen, or in a file and not on the screen. -/
def Host.Holds (host : Host (StateM σ)) (screen : σ → String) (before after : σ)
    (output : Option String) (text : String) : Prop :=
  match output with
  | none => screen after = screen before ++ text
  | some path => (host.read path after).1 = .ok text ∧ screen after = screen before

/-- Every text can be sent, and is kept. -/
structure Host.Takes (host : Host (StateM σ)) (screen : σ → String) (before : σ)
    (output : Option String) : Prop where
  taken (text : String) : (host.send output text before).1 = .ok ()
  held (text : String) : host.Holds screen before (host.send output text before).2 output text

variable {host : Host (StateM σ)} {screen : σ → String} {flags : Flags} {before : σ}

theorem Host.Steady.read_eq (h : host.Steady) (path : String) (s : σ) :
    host.read path s = ((host.setting s).content path, s) :=
  Prod.ext rfl (h.read path s)

theorem Host.Steady.entropy_eq (h : host.Steady) (s : σ) :
    host.entropy s = ((host.setting s).words, s) :=
  Prod.ext rfl (h.entropy s)

theorem load_bare (hconfig : flags.config = none) (s : σ) :
    load host flags s = (flags.spec, s) := by
  rw [load, hconfig]
  rfl

theorem load_file (hsteady : host.Steady) {path : String} (hconfig : flags.config = some path)
    (s : σ) : load host flags s = (flags.specFrom path ((host.setting s).content path), s) := by
  rw [load, hconfig]
  simp only [bind, StateT.bind, hsteady.read_eq]
  rfl

/-- A description is loaded, or the first obstacle to that is met; either way nothing changes. -/
theorem load_cases (hsteady : host.Steady) (flags : Flags) (s : σ) :
    (∃ spec, (host.setting s).Loads flags spec ∧ load host flags s = (.ok spec, s)) ∨
      ∃ place stop, (place < 4 ∧ (host.setting s).Obstacle flags place stop ∧
        ∀ earlier < place, 0 < earlier → ∀ other,
          ¬(host.setting s).Obstacle flags earlier other) ∧
        load host flags s = (.error stop, s) := by
  cases hconfig : flags.config with
  | none =>
    rw [load_bare hconfig, Flags.spec]
    cases hcollective : flags.collective with
    | none => exact Or.inr ⟨1, _, ⟨by decide, .noCollective hconfig hcollective, by omega⟩, rfl⟩
    | some collective =>
      cases hcommSize : flags.commSize with
      | none =>
        -- Before it comes the collective only, and it is there; files do not count without one.
        refine Or.inr ⟨2, _, ⟨by decide, .noCommSize hconfig hcommSize, ?_⟩, rfl⟩
        intro earlier hlt hpos other hother
        cases hother <;> simp_all
      | some commSize =>
        cases hdatasize : flags.datasize with
        | none =>
          refine Or.inr ⟨3, _, ⟨by decide, .noDatasize hconfig hdatasize, ?_⟩, rfl⟩
          intro earlier hlt hpos other hother
          cases hother <;> simp_all
        | some datasize =>
          exact Or.inl ⟨_, .bare hconfig hcollective hcommSize hdatasize, rfl⟩
  | some path =>
    rw [load_file hsteady hconfig]
    cases hcontent : (host.setting s).content path with
    | error problem => exact Or.inr ⟨1, _, ⟨by decide, .unreadable hconfig hcontent, by omega⟩, rfl⟩
    | ok text =>
      cases hread : Spec.read text with
      | error problem =>
        -- With a file no flag is missing, so that only reading it comes before.
        refine Or.inr ⟨2, _, ⟨by decide, .unparsable hconfig hcontent hread, ?_⟩, ?_⟩
        · intro earlier hlt hpos other hother
          cases hother <;> simp_all
        · simp only [Flags.specFrom, hread]
      | ok spec =>
        exact Or.inl ⟨_, .file hconfig hcontent hread, by simp only [Flags.specFrom, hread]⟩

/-- With nothing in the way, a trace is sent; else the run stops for the first obstacle and nothing
changes. -/
theorem compile_cases (hsteady : host.Steady) (flags : Flags) (s : σ) :
    (∃ stop, (host.setting s).StopsFor flags stop ∧ compile host flags s = (.error stop, s)) ∨
      ∃ format spec schedule, Trace.Format.parse (flags.format.getD "goal") = .ok format ∧
        (host.setting s).Loads flags spec ∧
        spec.build (host.setting s).words = .ok schedule ∧
        (∀ place stop, ¬(host.setting s).Obstacle flags place stop) ∧
        compile host flags s = emit host flags (format.text schedule) s := by
  rcases Trace.Format.parse_cases (flags.format.getD "goal") with ⟨format, hformat⟩ | hformat
  · have hknown : ∀ other, ¬(host.setting s).Obstacle flags 0 other := by
      rintro other (h | _)
      exact h format hformat
    rcases load_cases hsteady flags s with ⟨spec, hloads, hload⟩ |
      ⟨place, stop, ⟨-, hobstacle, hfirst⟩, hload⟩
    · -- A build refuses or succeeds, but never faults: the run cannot break down.
      rcases spec.refused_or_built (host.setting s).words with ⟨error, -, hbuild⟩ |
        ⟨-, schedule, -, hbuild, -, -⟩
      · refine Or.inl ⟨_, ⟨4, .unbuildable hloads hbuild, ?_⟩, ?_⟩
        · intro earlier hlt other hother
          rcases hloads.place_eq hother with rfl | rfl
          · exact hknown other hother
          · exact absurd hlt (Nat.lt_irrefl 4)
        · simp only [compile, hformat, bind, StateT.bind, hload, hsteady.entropy_eq, hbuild]
          rfl
      · refine Or.inr ⟨format, spec, schedule, hformat, hloads, hbuild,
          hloads.not_obstacle hformat hbuild, ?_⟩
        simp only [compile, hformat, bind, StateT.bind, hload, hsteady.entropy_eq, hbuild]
    · refine Or.inl ⟨stop, ⟨place, hobstacle, ?_⟩, ?_⟩
      · intro earlier hlt other hother
        rcases Nat.eq_zero_or_pos earlier with rfl | hpos
        · exact hknown other hother
        · exact hfirst earlier hlt hpos other hother
      · simp only [compile, hformat, bind, StateT.bind, hload]
        rfl
  · refine Or.inl ⟨_, ⟨0, .unknownFormat (by simp [hformat]), ?_⟩, ?_⟩
    · exact fun earlier hearlier => absurd hearlier (Nat.not_lt_zero earlier)
    · rw [compile, hformat]
      rfl

theorem emit_eq (host : Host (StateM σ)) (flags : Flags) (text : String) :
    emit host flags text =
      host.send flags.output text >>= fun result => pure (result.mapError .unwritable) := by
  rw [emit]
  cases flags.output <;> rfl

theorem Host.Takes.emit (h : host.Takes screen before flags.output) (text : String) :
    emit host flags text before = (.ok (), (host.send flags.output text before).2) := by
  have htaken := h.taken text
  rw [emit_eq]
  simp only [bind, StateT.bind]
  rcases hsend : host.send flags.output text before with ⟨result, after⟩
  rw [hsend] at htaken
  cases htaken
  rfl

theorem run_eq {arguments : List String} (hparse : Request.parse arguments = .compile flags)
    (s : σ) :
    run host arguments s =
      match compile host flags s with
      | (.ok (), after) => (.done, after)
      | (.error stop, after) => (.stopped stop, after) := by
  rw [run, hparse]
  simp only [bind, StateT.bind]
  rcases compile host flags s with ⟨result, after⟩
  cases result <;> rfl

end Host

namespace Directory

variable {d : Directory} {path name text : String}

theorem host_steady : host.Steady := ⟨fun _ _ => rfl, fun _ => rfl⟩

/-- Files only decide how a walk fails, not where it leads. -/
theorem walk_eq_ok (d' : Directory) {isHere : Bool} {names : List String} {target : Place}
    (h : d.walk isHere names = .ok target) : d'.walk isHere names = .ok target := by
  fun_induction d.walk isHere names <;> simp_all [walk]

theorem locate_put {target : Place} (h : d.locate path = .ok target) :
    (d.put name text).locate path = .ok target := by
  have hpath : (d.put name text).path = d.path := rfl
  revert h
  unfold locate
  rw [hpath]
  split_ifs
  · exact id
  · split <;> try exact id
    simp only []
    split <;> exact walk_eq_ok _

theorem decoded_toUTF8 (text : String) : decoded text.toUTF8 = .ok text := by
  have hvalid : text.toUTF8.IsValidUTF8 := text.isValidUTF8
  rw [decoded, String.fromUTF8?, dif_pos hvalid]
  rfl

theorem read_here (h : d.locate path = .ok (.here name)) (hslash : endsInSlash path = false)
    (hlong : isLongName name = false) (hbytes : d.bytes? name = some text.toUTF8) :
    d.read path = .ok text := by
  simp only [read, h, bind, Except.bind, hlong, hbytes, hslash, decoded_toUTF8]
  rfl

theorem bytes?_put (d : Directory) (name text : String) :
    (d.put name text).bytes? name = some text.toUTF8 :=
  List.lookup_cons_self

theorem send_here (h : d.locate path = .ok (.here name)) (hslash : endsInSlash path = false)
    (hlong : isLongName name = false) (text : String) :
    host.send (some path) text d = (.ok (), d.put name text) := by
  have hwrite : d.write path text = .ok (d.put name text) := by
    simp only [write, h, bind, Except.bind, hslash, hlong]
    rfl
  simp only [Host.send, host, bind, StateT.bind, get, getThe, MonadStateOf.get, StateT.get, pure,
    hwrite]
  rfl

/-- A name in the directory takes every text, whether there was a file or not. -/
theorem takes_here (h : d.locate path = .ok (.here name)) (hslash : endsInSlash path = false)
    (hlong : isLongName name = false) : host.Takes printed d (some path) := by
  refine ⟨fun text => ?_, fun text => ?_⟩
  · rw [send_here h hslash hlong]
  · rw [send_here h hslash hlong]
    exact ⟨read_here (locate_put h) hslash hlong (bytes?_put d name text), rfl⟩

/-- In the root directory a path is a slash and a name. -/
theorem locate_root (h : d.path = "") : d.locate "/o" = .ok (.here "o") := by
  have hroot : "".splitOn "/" = [""] := by
    rw [String.splitOn, if_neg (by decide), String.splitOnAux, if_pos (by decide)]
    decide
  have hnames : "/o".splitOn "/" = ["", "o"] := by
    rw [String.splitOn, if_neg (by decide), String.splitOnAux, if_neg (by decide),
      if_pos (by decide)]
    simp only []
    rw [if_pos (by decide), String.splitOnAux, if_neg (by decide), if_neg (by decide),
      String.splitOnAux, if_pos (by decide)]
    decide
  rw [locate, if_neg (by decide), h]
  · simp only []
    rw [hroot, hnames]
    rfl
  all_goals simp

end Directory

/-- A run is all or nothing. It stops exactly for the first obstacle; then that is what it says, and
nothing has changed. Without obstacles the trace of the schedule is sent as a whole: as the new
content of a file with nothing on the screen, or else to the screen. -/
theorem run_stops_or_sends {σ : Type} {host : Host (StateM σ)} {screen : σ → String} {before : σ}
    {arguments : List String} {flags : Flags} (hsteady : host.Steady)
    (htakes : host.Takes screen before flags.output)
    (hparse : Request.parse arguments = .compile flags) :
    let setting := host.setting before
    let outcome := (run host arguments before).1
    let after := (run host arguments before).2
    (∀ stop, outcome = .stopped stop ↔ setting.StopsFor flags stop) ∧
    (∀ stop, setting.StopsFor flags stop →
      outcome.exitCode = 2 ∧ outcome.complaint = "error: " ++ stop.message ++ "\n" ∧
        after = before) ∧
    ((∀ place stop, ¬setting.Obstacle flags place stop) →
      outcome.exitCode = 0 ∧
        ∃ format spec schedule text, Trace.Format.parse (flags.format.getD "goal") = .ok format ∧
          setting.Loads flags spec ∧ spec.build setting.words = .ok schedule ∧
          (∀ room, text.length ≤ room →
            format.write schedule { room } = (true, ⟨text, room - text.length⟩)) ∧
          host.send flags.output text before = (.ok (), after) ∧
          host.Holds screen before after flags.output text) := by
  intro setting outcome after
  rcases compile_cases hsteady flags before with ⟨first, hfirst, hcompile⟩ |
    ⟨format, spec, schedule, hformat, hloads, hbuild, hnone, hcompile⟩
  · have hrun : run host arguments before = (.stopped first, before) := by
      rw [run_eq hparse, hcompile]
    have houtcome : outcome = .stopped first := congrArg Prod.fst hrun
    refine ⟨fun stop => ?_, fun stop hstop => ?_, fun hnone => ?_⟩
    · rw [houtcome, Outcome.stopped.injEq]
      constructor
      · rintro rfl
        exact hfirst
      · exact hfirst.unique
    · rw [houtcome, ← hfirst.unique hstop]
      exact ⟨rfl, rfl, congrArg Prod.snd hrun⟩
    · obtain ⟨place, hobstacle, -⟩ := hfirst
      exact absurd hobstacle (hnone place first)
  · have hrun : run host arguments before =
        (.done, (host.send flags.output (format.text schedule) before).2) := by
      rw [run_eq hparse, hcompile, htakes.emit]
    have houtcome : outcome = .done := congrArg Prod.fst hrun
    have hafter : (host.send flags.output (format.text schedule) before).2 = after :=
      (congrArg Prod.snd hrun).symm
    have hnever : ∀ stop, ¬setting.StopsFor flags stop := by
      rintro stop ⟨place, hobstacle, -⟩
      exact hnone place stop hobstacle
    refine ⟨fun stop => ?_, fun stop hstop => absurd hstop (hnever stop), fun _ => ?_⟩
    · rw [houtcome]
      exact iff_of_false (by rintro ⟨⟩) (hnever stop)
    · refine ⟨by rw [houtcome]; rfl, format, spec, schedule, format.text schedule, hformat, hloads,
        hbuild, fun room hroom => ?_, Prod.ext (htakes.taken _) hafter, ?_⟩
      · rw [format.write_eq_put, Trace.Sink.put_of_fits hroom, String.empty_append]
      · exact hafter ▸ htakes.held _

/-- A description is replaced by its trace. An unknown format is said before a missing flag. -/
theorem run_stops_or_sends_replaced :
    let description := "\x7b\"collective\": \"binomialtree\", \"comm_size\": 3, \"datasize\": 8\x7d"
    let trace := "num_ranks 2\n\nrank 0 \x7b\nl0: recv 8b from 1 tag 0\n\x7d\n\n" ++
      "rank 1 \x7b\nl0: send 8b to 0 tag 0\n\x7d\n"
    let d : Directory := { path := "", files := [("o", description.toUTF8)] }
    let good := ["--config", "/o", "--comm-size", "2", "--output", "/o"]
    let bad := ["--datasize", "8", "--output", "/o", "--format", "xml"]
    (Directory.host.Steady ∧ Directory.host.Takes Directory.printed d (some "/o") ∧
        Request.parse good =
          .compile { config := some "/o", commSize := some 2, output := some "/o" } ∧
        Request.parse bad =
          .compile { datasize := some 8, output := some "/o", format := some "xml" }) ∧
      (run Directory.host good d).1.exitCode = 0 ∧
      (run Directory.host good d).2.read "/o" = .ok trace ∧
      (run Directory.host good d).2.printed = "" ∧
      (run Directory.host bad d).1.exitCode = 2 ∧
      (run Directory.host bad d).1.complaint = "error: unknown trace format: xml\n" ∧
      (run Directory.host bad d).2 = d := by
  intro description trace d good bad
  have hgood : Request.parse good =
      .compile { config := some "/o", commSize := some 2, output := some "/o" } := by decide
  have hbad : Request.parse bad =
      .compile { datasize := some 8, output := some "/o", format := some "xml" } := by decide
  have hhere : d.locate "/o" = .ok (.here "o") := Directory.locate_root rfl
  have htakes : Directory.host.Takes Directory.printed d (some "/o") :=
    Directory.takes_here hhere (by decide) (by decide)
  have hcontent : (Directory.host.setting d).content "/o" = .ok description :=
    Directory.read_here hhere (by decide) (by decide) rfl
  have hread : Spec.read description =
      .ok { collective := "binomialtree", commSize := 3, datasize := 8 } := by decide +kernel
  let spec : Spec := { collective := "binomialtree", commSize := 2, datasize := 8 }
  have hloads : (Directory.host.setting d).Loads
      { config := some "/o", commSize := some 2, output := some "/o" } spec :=
    .file rfl hcontent hread
  obtain ⟨schedule, hbuild, htext⟩ : ∃ schedule,
      spec.build (Directory.host.setting d).words = .ok schedule ∧
        Trace.Format.goal.text schedule = trace := by
    have hmap : (spec.build (Directory.host.setting d).words).map Trace.Format.goal.text =
        .ok trace := by decide +kernel
    cases hbuild : spec.build (Directory.host.setting d).words with
    | error failure =>
      rw [hbuild] at hmap
      cases hmap
    | ok schedule =>
      rw [hbuild] at hmap
      exact ⟨schedule, rfl, Except.ok.inj hmap⟩
  obtain ⟨-, -, hsends⟩ := run_stops_or_sends Directory.host_steady htakes hgood
  obtain ⟨-, hstops, -⟩ := run_stops_or_sends Directory.host_steady htakes hbad
  obtain ⟨hexit, format, spec', schedule', text, hformat, hloads', hbuild', hwrite, -, hfile,
    hscreen⟩ := hsends (hloads.not_obstacle (by decide : _ = Except.ok Trace.Format.goal) hbuild)
  cases hformat.symm.trans (by decide : _ = Except.ok Trace.Format.goal)
  cases hloads.unique hloads'
  cases hbuild.symm.trans hbuild'
  have hboth := hwrite (text.length + trace.length) (Nat.le_add_right _ _)
  rw [Trace.Format.write_eq_put, htext, Trace.Sink.put_of_fits (Nat.le_add_left _ _)] at hboth
  have hsame : trace = text := by
    simpa using congrArg (fun result => result.2.written) hboth
  obtain ⟨hcode, hsaid, hkept⟩ := hstops (.format (.unknownFormat "xml"))
    ⟨0, .unknownFormat (by rintro (_ | _) <;> decide), fun earlier hlt => absurd hlt (by omega)⟩
  exact ⟨⟨Directory.host_steady, htakes, hgood, hbad⟩, hexit, hsame ▸ hfile, hscreen, hcode, hsaid,
    hkept⟩

end Command
end Collectives
