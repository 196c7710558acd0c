import Collectives.Proofs.Partners

/-!
# Exchanges on a schedule

An exchange whose lists agree in length and whose ranks are members is carried out to its end, and
what it appends is known beforehand. Two chained exchanges of which the second waits for the first
append what one exchange of all their pairs appends.
-/

namespace Collectives

namespace Exchange

/-- The lists of an exchange agree in length, and its ranks are local ranks of a communicator of
`size` ranks. -/
structure Valid (ex : Exchange) (size : Nat) : Prop where
  destinations_length : ex.destinations.length = ex.sources.length
  recvSizes_length : ex.recvSizes.length = ex.sources.length
  sendSizes_length : ex.sendSizes.length = ex.sources.length
  rank_lt : ex.rank < size
  source_lt : ∀ source ∈ ex.sources, source < size
  destination_lt : ∀ destination ∈ ex.destinations, destination < size

/-- The pairs of an exchange as its lists give them. -/
def listed (ex : Exchange) : List Pair :=
  ((ex.sources.zip ex.recvSizes).zip (ex.destinations.zip ex.sendSizes)).map
    fun ((source, recvSize), destination, sendSize) =>
      { source, recvSize, destination, sendSize, tag := ex.tag }

variable {ex : Exchange} {size : Nat}

theorem Valid.pairs_eq (h : ex.Valid size) : ex.pairs size = .ok ex.listed := by
  have hranks : (ex.rank :: ex.sources ++ ex.destinations).find? (size ≤ ·) = none := by
    rw [List.find?_eq_none]
    intro rank hrank
    have hlt : rank < size := by
      rcases List.mem_append.1 hrank with hrank | hrank
      · rcases List.mem_cons.1 hrank with rfl | hrank
        · exact h.rank_lt
        · exact h.source_lt rank hrank
      · exact h.destination_lt rank hrank
    simpa using hlt
  rw [pairs, hranks]
  simp [checkLength, h.destinations_length, h.recvSizes_length, h.sendSizes_length, bind,
    Except.bind, pure, Except.pure, listed]

/-- The exchanges that are not refused are the valid ones. -/
theorem valid_iff : ex.Valid size ↔ ∃ pairs, ex.pairs size = .ok pairs := by
  refine ⟨fun h => ⟨_, h.pairs_eq⟩, ?_⟩
  rintro ⟨pairs, hpairs⟩
  have hdestinations : ex.destinations.length = ex.sources.length := by
    by_contra hne
    simp [Exchange.pairs, checkLength, hne, bind, Except.bind] at hpairs
  have hrecv : ex.recvSizes.length = ex.sources.length := by
    by_contra hne
    simp [Exchange.pairs, checkLength, hdestinations, hne, bind, Except.bind] at hpairs
  have hsend : ex.sendSizes.length = ex.sources.length := by
    by_contra hne
    simp [Exchange.pairs, checkLength, hdestinations, hrecv, hne, bind, Except.bind] at hpairs
  have hranks : ∀ rank ∈ ex.rank :: ex.sources ++ ex.destinations, rank < size := by
    cases hfind : (ex.rank :: ex.sources ++ ex.destinations).find? (size ≤ ·) with
    | none => simpa using List.find?_eq_none.1 hfind
    | some rank =>
      rw [Exchange.pairs, hfind] at hpairs
      simp [checkLength, hdestinations, hrecv, hsend, bind, Except.bind] at hpairs
  exact ⟨hdestinations, hrecv, hsend, hranks _ (by simp),
    fun source hmem => hranks source (by simp [hmem]),
    fun destination hmem => hranks destination (by simp [hmem])⟩

theorem Valid.length_listed (h : ex.Valid size) : ex.listed.length = ex.sources.length := by
  simp [listed, h.destinations_length, h.recvSizes_length, h.sendSizes_length]

theorem Valid.ends_lt (h : ex.Valid size) :
    ∀ pair ∈ ex.listed, pair.source < size ∧ pair.destination < size := by
  intro pair hpair
  obtain ⟨⟨⟨source, recvSize⟩, destination, sendSize⟩, hmem, rfl⟩ := List.mem_map.1 hpair
  obtain ⟨hfirst, hsecond⟩ := List.of_mem_zip hmem
  exact ⟨h.source_lt _ (List.of_mem_zip hfirst).1, h.destination_lt _ (List.of_mem_zip hsecond).1⟩

end Exchange

theorem Wait.Refers.mono {s : Schedule} {count more : Nat} {wait : Wait} (h : wait.Refers s count)
    (hle : count ≤ more) : wait.Refers s more := by
  cases wait with
  | own position => exact Nat.lt_of_lt_of_le h hle
  | existing id => exact h

theorem Pair.fits_round {s : Schedule} {size count : Nat} {pair : Pair} {waits : List Wait}
    (hpair : pair.source < size ∧ pair.destination < size)
    (hwaits : ∀ wait ∈ waits, wait.Refers s count) :
    ∀ planned ∈ pair.round waits, planned.Fits s size (count + 2) := by
  intro planned hmem
  simp only [round, List.mem_cons, List.not_mem_nil, or_false] at hmem
  rcases hmem with rfl | rfl
  · exact ⟨fun peer hpeer => by cases hpeer; exact hpair.2,
      fun wait hwait => (hwaits wait hwait).mono (Nat.le_add_right count 2)⟩
  · exact ⟨fun peer hpeer => by cases hpeer; exact hpair.1,
      fun wait hwait => (hwaits wait hwait).mono (Nat.le_add_right count 2)⟩

namespace RankPlan

variable {s : Schedule} {size cost : Nat} {pairs : List Pair}

/-- Plans made of pairs between members fit any schedule if their waits are for earlier pairs. -/
theorem fits_of_pairs {plan : RankPlan} {sendWaits recvWaits : Nat → List Wait}
    (hplan : plan.flatten = pairOps cost sendWaits recvWaits 0 pairs)
    (hsend : ∀ k, ∀ wait ∈ sendWaits k, ∃ earlier < stride cost * k, wait = .own earlier)
    (hrecv : ∀ k, ∀ wait ∈ recvWaits k, ∃ earlier < stride cost * k, wait = .own earlier)
    (hpairs : ∀ pair ∈ pairs, pair.source < size ∧ pair.destination < size) (s : Schedule) :
    plan.Fits s size 0 := by
  apply fits_of_backward
  intro position planned hget
  rw [hplan, getElem?_pairOps] at hget
  rw [Nat.zero_add]
  cases hget with
  | @send k pair h =>
    have hends := hpairs pair (List.mem_of_getElem? h)
    exact ⟨fun peer hpeer => by cases hpeer; exact hends.2, hsend k⟩
  | @recv k pair h =>
    have hends := hpairs pair (List.mem_of_getElem? h)
    refine ⟨fun peer hpeer => by cases hpeer; exact hends.1, fun wait hwait => ?_⟩
    obtain ⟨earlier, hlt, rfl⟩ := hrecv k wait hwait
    exact ⟨earlier, Nat.lt_succ_of_lt hlt, rfl⟩
  | @compute k pair h hcost =>
    refine ⟨fun peer hpeer => (nomatch hpeer), fun wait hwait => ?_⟩
    exact ⟨3 * k + 1, Nat.lt_succ_self _, List.mem_singleton.1 hwait⟩

/-- What one pair adds to a chain. -/
def link (cost position : Nat) (handle : Option Wait) (pair : Pair) : RankPlan :=
  pair.round handle.toList :: if cost = 0 then [] else [[⟨.calc cost, [.own (position + 1)]⟩]]

theorem chained_cons (cost position : Nat) (handle : Option Wait) (pair : Pair)
    (pairs : List Pair) :
    chained cost position handle (pair :: pairs) =
      link cost position handle pair ++
        chained cost (position + stride cost) (some (.own (position + stride cost - 1))) pairs := by
  by_cases hcost : cost = 0 <;> simp [chained, link, stride, hcost]

@[simp] theorem length_flatten_link (cost position : Nat) (handle : Option Wait) (pair : Pair) :
    (link cost position handle pair).flatten.length = stride cost := by
  by_cases hcost : cost = 0 <;> simp [link, stride, hcost, Pair.round]

theorem fits_append {count : Nat} {plan more : RankPlan} :
    Fits s size count (plan ++ more) ↔
      plan.Fits s size count ∧ more.Fits s size (count + plan.flatten.length) := by
  induction plan generalizing count with
  | nil => simp [Fits]
  | cons round plan ih => simp [Fits, ih, and_assoc, Nat.add_assoc]

theorem fits_link {position : Nat} {handle : Option Wait} {pair : Pair}
    (hpair : pair.source < size ∧ pair.destination < size)
    (hhandle : ∀ wait ∈ handle, wait.Refers s position) :
    (link cost position handle pair).Fits s size position := by
  refine ⟨Pair.fits_round hpair fun wait hwait => hhandle wait (Option.mem_toList.1 hwait), ?_⟩
  split
  case isTrue => trivial
  case isFalse =>
    refine ⟨fun planned hmem => ?_, trivial⟩
    obtain rfl := List.mem_singleton.1 hmem
    refine ⟨fun peer hpeer => (nomatch hpeer), fun wait hwait => ?_⟩
    obtain rfl := List.mem_singleton.1 hwait
    show position + 1 < position + 2 + 1
    omega

/-- A chain of pairs between members fits any schedule that has what its first pair waits for. -/
theorem fits_chained {position : Nat} {handle : Option Wait}
    (hpairs : ∀ pair ∈ pairs, pair.source < size ∧ pair.destination < size)
    (hhandle : ∀ wait ∈ handle, wait.Refers s position) :
    (chained cost position handle pairs).Fits s size position := by
  induction pairs generalizing position handle with
  | nil => trivial
  | cons pair pairs ih =>
    rw [chained_cons, fits_append, length_flatten_link]
    refine ⟨fits_link (hpairs pair List.mem_cons_self) hhandle,
      ih (fun p hp => hpairs p (List.mem_cons_of_mem _ hp)) ?_⟩
    rintro wait ⟨⟩
    have hpos := stride_pos cost
    show position + stride cost - 1 < position + stride cost
    omega

@[simp] theorem length_flatten_chained (cost position : Nat) (handle : Option Wait)
    (pairs : List Pair) :
    (chained cost position handle pairs).flatten.length = stride cost * pairs.length := by
  induction pairs generalizing position handle with
  | nil => rfl
  | cons pair pairs ih =>
    rw [chained_cons, List.flatten_append, List.length_append, length_flatten_link, ih,
      List.length_cons, Nat.mul_succ, Nat.add_comm]

theorem length_flatten_parallel (pairs : List Pair) :
    (parallel pairs).flatten.length = 2 * pairs.length := by
  rw [flatten_parallel, length_pairOps]
  rfl

theorem length_flatten_windowed (window : Nat) (pairs : List Pair) :
    (windowed window pairs).flatten.length = 2 * pairs.length := by
  rw [flatten_windowed, length_pairOps]
  rfl

/-- What the pairs after the first `count` of a chain wait for. -/
def handleAfter (cost position : Nat) (handle : Option Wait) (count : Nat) : Option Wait :=
  if count = 0 then handle else some (.own (position + stride cost * count - 1))

theorem handleAfter_succ (cost position : Nat) (handle : Option Wait) (count : Nat) :
    handleAfter cost (position + stride cost) (some (.own (position + stride cost - 1))) count =
      handleAfter cost position handle (count + 1) := by
  unfold handleAfter
  split
  case isTrue hnone => simp [hnone]
  case isFalse => rw [if_neg (Nat.succ_ne_zero count), Nat.mul_succ, Nat.add_right_comm,
    Nat.add_assoc]

theorem chained_append (cost position : Nat) (handle : Option Wait) (pairs more : List Pair) :
    chained cost position handle (pairs ++ more) =
      chained cost position handle pairs ++
        chained cost (position + stride cost * pairs.length)
          (handleAfter cost position handle pairs.length) more := by
  induction pairs generalizing position handle with
  | nil => simp [chained, handleAfter]
  | cons pair pairs ih =>
    rw [List.cons_append, chained_cons, ih, chained_cons, List.append_assoc, List.length_cons,
      handleAfter_succ cost position handle, Nat.mul_succ, Nat.add_right_comm, Nat.add_assoc]

section Placed

variable {c : Communicator} {owner base shift : Nat}

@[simp] theorem opsOn_nil : RankPlan.opsOn c owner base [] = [] := rfl

theorem opsOn_append (plan more : RankPlan) :
    (plan ++ more).opsOn c owner base = plan.opsOn c owner base ++ more.opsOn c owner base := by
  rw [opsOn, List.flatten_append, List.map_append]
  rfl

theorem place_congr (action : Action) {waits others : List Wait} {base' : Nat}
    (h : waits.map (·.resolve owner base) = others.map (·.resolve owner base')) :
    Planned.place c owner base ⟨action, waits⟩ = Planned.place c owner base' ⟨action, others⟩ := by
  rw [Planned.place, Planned.place, h]

theorem opsOn_link_shift {position : Nat} {handle other : Option Wait} (pair : Pair)
    (h : handle.map (·.resolve owner base) = other.map (·.resolve owner (base + shift))) :
    (link cost (shift + position) handle pair).opsOn c owner base =
      (link cost position other pair).opsOn c owner (base + shift) := by
  have hwaits : handle.toList.map (·.resolve owner base) =
      other.toList.map (·.resolve owner (base + shift)) := by
    rw [← Option.toList_map, h, Option.toList_map]
  have hreceive : [Wait.own (shift + position + 1)].map (·.resolve owner base) =
      [Wait.own (position + 1)].map (·.resolve owner (base + shift)) := by
    simp [Wait.resolve, Nat.add_assoc]
  by_cases hcost : cost = 0
  · simp [link, opsOn, Pair.round, hcost, place_congr _ hwaits]
  · simp [link, opsOn, Pair.round, hcost, place_congr _ hwaits, place_congr _ hreceive]

/-- A chain that lies further back becomes the same operations when what it waits for does. -/
theorem opsOn_chained_shift {position : Nat} {handle other : Option Wait} (pairs : List Pair)
    (h : handle.map (·.resolve owner base) = other.map (·.resolve owner (base + shift))) :
    (chained cost (shift + position) handle pairs).opsOn c owner base =
      (chained cost position other pairs).opsOn c owner (base + shift) := by
  induction pairs generalizing position handle other with
  | nil => rfl
  | cons pair pairs ih =>
    have hpos := stride_pos cost
    have hnext : (some (Wait.own (shift + position + stride cost - 1))).map
          (·.resolve owner base) =
        (some (Wait.own (position + stride cost - 1))).map (·.resolve owner (base + shift)) := by
      simp only [Option.map_some, Wait.resolve, Option.some.injEq, OpId.mk.injEq, true_and]
      omega
    rw [chained_cons, chained_cons, opsOn_append, opsOn_append, opsOn_link_shift pair h,
      Nat.add_assoc, ih (by rw [← Nat.add_assoc]; exact hnext)]

end Placed

end RankPlan

namespace Exchange

/-- What `count` operations of `owner` behind `base` others leave for a later step to wait for: the
last of them, or `last` if there are none. -/
def left (owner base count : Nat) (last : Option OpId) : Option OpId :=
  if count = 0 then last else some ⟨owner, base + count - 1⟩

theorem left_of_ne_zero {owner base count : Nat} (h : count ≠ 0) (last : Option OpId) :
    left owner base count last = some ⟨owner, base + count - 1⟩ :=
  if_neg h

theorem left_left (owner base count more : Nat) (last : Option OpId) :
    left owner (base + count) more (left owner base count last) =
      left owner base (count + more) last := by
  by_cases hmore : more = 0
  · rw [hmore, Nat.add_zero, left, if_pos rfl]
  · rw [left_of_ne_zero hmore, left_of_ne_zero (by omega), Nat.add_assoc]

theorem getLast?_names (owner base count : Nat) (last : Option OpId) :
    (Schedule.names owner base count).getLast?.or last = left owner base count last := by
  unfold left
  split
  case isTrue hnone => simp [hnone]
  case isFalse hsome =>
    rw [List.getLast?_eq_getElem?, Schedule.length_names,
      Schedule.names_getElem? (Nat.sub_one_lt hsome), Option.some_or,
      Nat.add_sub_assoc (Nat.pos_of_ne_zero hsome)]

/-- One chain after another that waits for it is one chain. -/
theorem opsOn_chained_append {c : Communicator} {owner base cost : Nat} (last : Option OpId)
    (pairs more : List Pair) :
    (RankPlan.chained cost 0 (last.map .existing) (pairs ++ more)).opsOn c owner base =
      (RankPlan.chained cost 0 (last.map .existing) pairs).opsOn c owner base ++
        (RankPlan.chained cost 0
          ((left owner base (stride cost * pairs.length) last).map .existing) more).opsOn c owner
            (base + stride cost * pairs.length) := by
  have hpos := stride_pos cost
  have hhandle : (RankPlan.handleAfter cost 0 (last.map Wait.existing) pairs.length).map
        (Wait.resolve owner base) =
      ((left owner base (stride cost * pairs.length) last).map Wait.existing).map
        (Wait.resolve owner (base + stride cost * pairs.length)) := by
    unfold RankPlan.handleAfter left
    by_cases hnone : pairs.length = 0
    · simp [hnone, Function.comp_def, Wait.resolve]
    · have hlength : 0 < stride cost * pairs.length := Nat.mul_pos hpos (Nat.pos_of_ne_zero hnone)
      rw [if_neg hnone, if_neg (Nat.ne_of_gt hlength)]
      simp only [Option.map_some, Wait.resolve, Option.some.injEq, OpId.mk.injEq, true_and]
      omega
  rw [RankPlan.chained_append, RankPlan.opsOn_append, Nat.zero_add,
    ← RankPlan.opsOn_chained_shift more hhandle, Nat.add_zero]

section Run

open Build

variable {c : Communicator} {s : Schedule} {ex : Exchange}

/-! What is wrong with the lists is reported by every policy, before anything is created. -/

theorem runOn_sequential_refused {error : Error} (h : ex.pairs c.size = .error error)
    (last : Option OpId) (cost : Nat) (s : Schedule) :
    (sequential c ex last cost).runOn s = (.error (.refused error), s) := by
  simp [sequential, runOn_bind, h]

theorem runOn_parallel_refused {error : Error} (h : ex.pairs c.size = .error error)
    (s : Schedule) : (parallel c ex).runOn s = (.error (.refused error), s) := by
  simp [parallel, runOn_bind, h]

theorem runOn_windowed_refused {error : Error} (h : ex.pairs c.size = .error error) {window : Nat}
    (hwindow : window ≠ 0) (s : Schedule) :
    (windowed c ex window).runOn s = (.error (.refused error), s) := by
  simp [windowed, runOn_bind, h, hwindow]

theorem runOn_sequential (hinside : c.Inside s) (hvalid : ex.Valid c.size) {last : Option OpId}
    (hlast : ∀ id ∈ last, (s.op? id).isSome = true) (cost : Nat) :
    (sequential c ex last cost).runOn s =
      (.ok (left (c.member ex.rank) (s.opsAt (c.member ex.rank)).length
          (stride cost * ex.listed.length) last),
        s.grow (c.member ex.rank)
          ((RankPlan.chained cost 0 (last.map .existing) ex.listed).opsOn c (c.member ex.rank)
            (s.opsAt (c.member ex.rank)).length)) := by
  have hfits : (RankPlan.chained cost 0 (last.map .existing) ex.listed).Fits s c.size 0 := by
    refine RankPlan.fits_chained hvalid.ends_lt fun wait hwait => ?_
    obtain ⟨id, hid, rfl⟩ := Option.map_eq_some_iff.1 hwait
    exact hlast id hid
  have hissue := runOn_issue hvalid.rank_lt (hinside _ (c.member_mem hvalid.rank_lt)) _ hfits
  simp only [sequential, runOn_bind, hvalid.pairs_eq, runOn_check_ok, hissue, runOn_pure,
    RankPlan.length_flatten_chained, getLast?_names]

theorem runOn_sequential_none (hinside : c.Inside s) (hvalid : ex.Valid c.size) (cost : Nat) :
    (sequential c ex none cost).runOn s =
      (.ok (left (c.member ex.rank) (s.opsAt (c.member ex.rank)).length
          (stride cost * ex.listed.length) none),
        s.grow (c.member ex.rank) ((RankPlan.chained cost 0 none ex.listed).opsOn c
          (c.member ex.rank) (s.opsAt (c.member ex.rank)).length)) :=
  runOn_sequential hinside hvalid (by simp) cost

theorem runOn_parallel (hinside : c.Inside s) (hvalid : ex.Valid c.size) :
    (parallel c ex).runOn s =
      (.ok (left (c.member ex.rank) (s.opsAt (c.member ex.rank)).length
          (RankPlan.parallel ex.listed).flatten.length none),
        s.grow (c.member ex.rank) ((RankPlan.parallel ex.listed).opsOn c (c.member ex.rank)
          (s.opsAt (c.member ex.rank)).length)) := by
  have hfits : (RankPlan.parallel ex.listed).Fits s c.size 0 :=
    RankPlan.fits_of_pairs (RankPlan.flatten_parallel _) (by simp) (by simp) hvalid.ends_lt s
  have hissue := runOn_issue hvalid.rank_lt (hinside _ (c.member_mem hvalid.rank_lt)) _ hfits
  simp only [parallel, runOn_bind, hvalid.pairs_eq, runOn_check_ok, hissue, runOn_pure,
    ← getLast?_names, Option.or_none]

theorem runOn_windowed (hinside : c.Inside s) (hvalid : ex.Valid c.size) {window : Nat}
    (hwindow : window ≠ 0) :
    (windowed c ex window).runOn s =
      (.ok (left (c.member ex.rank) (s.opsAt (c.member ex.rank)).length
          (RankPlan.windowed window ex.listed).flatten.length none),
        s.grow (c.member ex.rank) ((RankPlan.windowed window ex.listed).opsOn c (c.member ex.rank)
          (s.opsAt (c.member ex.rank)).length)) := by
  have hfits : (RankPlan.windowed window ex.listed).Fits s c.size 0 :=
    RankPlan.fits_of_pairs (RankPlan.flatten_windowed _ _) (RankPlan.windowWaits_earlier hwindow)
      (RankPlan.windowWaits_earlier hwindow) hvalid.ends_lt s
  have hissue := runOn_issue hvalid.rank_lt (hinside _ (c.member_mem hvalid.rank_lt)) _ hfits
  simp only [windowed, if_neg hwindow, runOn_bind, runOn_pure, hvalid.pairs_eq, runOn_check_ok,
    hissue, ← getLast?_names, Option.or_none]

end Run

end Exchange
end Collectives
