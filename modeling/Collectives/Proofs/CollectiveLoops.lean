import Collectives.Phases
import Collectives.Proofs.Calls
import Collectives.Proofs.CompleteExchange
import Collectives.Proofs.Loops

/-!
# Collectives as loops

The collectives again, as loops over the ranks of a communicator that create one operation after
another. What a turn has to know of earlier ones is kept in variables, and every peer, size and tag
is looked up and checked where it is used. Once a collective was not refused at its beginning, no
check fails later, and its loops leave what placing its plans leaves.
-/

namespace Collectives

open Build

variable {c : Communicator} {s : Schedule}

section Phases

/-- Two exchanges of one rank one after the other, each under a tag of its own. -/
def Reduction.twoPhases (r : Reduction) (c : Communicator) (first second : Tag → Exchange) :
    Build Unit := do
  let phases ← (Phases.start r.tag).phase fun tag last => (first tag).sequentialLoop c last r.cost
  discard (phases.phase fun tag last => (second tag).sequentialLoop c last r.cost)

theorem Phases.runOn_phase {p : Phases} {tag : Tag} (htag : p.tag = some tag)
    (body : Tag → Option OpId → Build (Option OpId)) (s : Schedule) :
    Build.runOn (p.phase body) s =
      match (body tag p.handle).runOn s with
      | (.ok handle, made) => (.ok (p.advance handle), made)
      | (.error failure, made) => (.error failure, made) := by
  simp only [phase, current, htag, bind_pure_comp, runOn_map]
  rcases (body tag p.handle).runOn s with ⟨failure | handle, made⟩ <;> rfl

theorem Reduction.next?_tag {r : Reduction} {secondTag : Tag} (h : r.secondTag = .ok secondTag) :
    Tag.next? r.tag = some secondTag := by
  unfold Reduction.secondTag at h
  split at h
  case h_1 hnext => rw [hnext, Except.ok.inj h]
  case h_2 => cases h

/-- Once the second tag is known to exist, both phases run, and together they leave one chain. -/
theorem Reduction.runOn_twoPhases (r : Reduction) (hinside : c.Inside s)
    (first second : Tag → Exchange) {secondTag : Tag} (htag : r.secondTag = .ok secondTag)
    (hfirst : (first r.tag).Valid c.size) (hsecond : (second secondTag).Valid c.size) {rank : Nat}
    (hrank : (first r.tag).rank = rank) (hrank' : (second secondTag).rank = rank) :
    (r.twoPhases c first second).runOn s =
      (.ok (), s.grow (c.member rank)
        ((RankPlan.chained r.cost 0 none
            ((first r.tag).listed ++ (second secondTag).listed)).opsOn c (c.member rank)
          (s.opsAt (c.member rank)).length)) := by
  have hnext : (Phases.start r.tag).tag.bind Tag.next? = some secondTag := next?_tag htag
  have hnone : ∀ id ∈ (none : Option OpId), (s.op? id).isSome = true := by simp
  rw [twoPhases, runOn_bind, Phases.runOn_phase rfl]
  generalize first r.tag = one at hfirst hrank ⊢
  obtain rfl := hrank
  have hone := (Exchange.runOn_sequentialLoop hinside hnone r.cost).trans
    (Exchange.runOn_sequential_none hinside hfirst r.cost)
  simp only [Phases.start, hone, runOn_discard]
  rw [Phases.runOn_phase hnext]
  generalize second secondTag = two at hsecond hrank' ⊢
  obtain ⟨htwo, hloop⟩ :=
    Exchange.runOn_sequential_behind hinside hsecond hnone one.listed r.cost
  rw [htwo, hrank', Option.map_none] at hloop
  simp only [Phases.advance, Option.or_none, hloop]

end Phases

namespace Ring

/-- The exchange of one phase: a chunk to one neighbour and one from the other, in every round. -/
def phaseOf (rank source destination size ranks : Nat) (tag : Tag) : Exchange where
  rank := rank
  sources := .replicate (ranks - 1) source
  destinations := .replicate (ranks - 1) destination
  recvSizes := .replicate (ranks - 1) (chunk size ranks)
  sendSizes := .replicate (ranks - 1) (chunk size ranks)
  tag := tag

def allreduceLoop (c : Communicator) (r : Reduction) : Build Unit := do
  discard (check r.secondTag)
  eachRank c fun rank => do
    let (before, behind) ← demand (neighbours rank c.size)
    r.twoPhases c (phaseOf rank before behind r.size c.size)
      (phaseOf rank behind before r.size c.size)

theorem valid_phaseOf {rank source destination ranks : Nat} (hrank : rank < ranks)
    (hsource : source < ranks) (hdestination : destination < ranks) (size : Nat) (tag : Tag) :
    (phaseOf rank source destination size ranks tag).Valid ranks where
  destinations_length := by simp [phaseOf]
  recvSizes_length := by simp [phaseOf]
  sendSizes_length := by simp [phaseOf]
  rank_lt := hrank
  source_lt := fun source hmem => (List.mem_replicate.1 hmem).2 ▸ hsource
  destination_lt := fun destination hmem => (List.mem_replicate.1 hmem).2 ▸ hdestination

theorem listed_phaseOf (rank source destination size ranks : Nat) (tag : Tag) :
    (phaseOf rank source destination size ranks tag).listed =
      rounds source destination size ranks tag := by
  simp [phaseOf, Exchange.listed, rounds]

theorem runOn_allreduceLoop (hinside : c.Inside s) (r : Reduction) :
    (allreduceLoop c r).runOn s = (allreduce r).outcome c s := by
  cases htag : r.secondTag with
  | error error =>
    have hrefused : allreduce r c.size = .error error := by
      simp [allreduce, htag, bind, Except.bind]
    simp [allreduceLoop, Pattern.outcome, hrefused, runOn_bind, runOn_discard, htag]
  | ok secondTag =>
    have hplans : allreduce r c.size = .ok (plan r secondTag c.size) := by
      simp [allreduce, htag, bind, Except.bind, pure, Except.pure]
    simp only [allreduceLoop, Pattern.outcome, hplans, runOn_bind, runOn_discard, htag,
      runOn_check_ok]
    refine runOn_eachRank (fun rank hrank t ht => ?_) hinside
    have hpos : 0 < c.size := Nat.zero_lt_of_lt hrank
    have hbefore : predecessor rank c.size < c.size := Nat.mod_lt _ hpos
    have hbehind : successor rank c.size < c.size := Nat.mod_lt _ hpos
    have hphases := r.runOn_twoPhases ht _ _ htag
      (valid_phaseOf hrank hbefore hbehind r.size r.tag)
      (valid_phaseOf hrank hbehind hbefore r.size secondTag) rfl rfl
    rw [listed_phaseOf, listed_phaseOf] at hphases
    rw [runOn_bind, neighbours, if_neg (Nat.ne_of_gt hpos), runOn_demand_ok]
    exact hphases

end Ring

namespace Butterfly

/-- The first phase halves the data at every step. -/
def halving (rank size : Nat) (partners : List Nat) (tag : Tag) : Exchange where
  rank := rank
  sources := partners
  destinations := partners
  recvSizes := (List.range partners.length).map fun step => size >>> (step + 1)
  sendSizes := (List.range partners.length).map fun step => size >>> (step + 1)
  tag := tag

/-- The same exchange with its steps backwards. -/
def backwards (ex : Exchange) : Exchange where
  rank := ex.rank
  sources := ex.sources.reverse
  destinations := ex.destinations.reverse
  recvSizes := ex.recvSizes.reverse
  sendSizes := ex.sendSizes.reverse
  tag := ex.tag

def allreduceLoop (c : Communicator) (r : Reduction) : Build Unit := do
  if !isPowerOfTwo c.size then refuse (.notPowerOfTwo c.size)
  discard (check r.secondTag)
  eachRank c fun rank => do
    let partners ← check (partners? rank c.size)
    r.twoPhases c (halving rank r.size partners) fun tag =>
      backwards (halving rank r.size partners tag)

theorem valid_backwards {ex : Exchange} {size : Nat} (h : ex.Valid size) :
    (backwards ex).Valid size where
  destinations_length := by simp [backwards, h.destinations_length]
  recvSizes_length := by simp [backwards, h.recvSizes_length]
  sendSizes_length := by simp [backwards, h.sendSizes_length]
  rank_lt := h.rank_lt
  source_lt := fun source hmem => h.source_lt source (List.mem_reverse.1 hmem)
  destination_lt := fun destination hmem => h.destination_lt destination (List.mem_reverse.1 hmem)

theorem listed_backwards {ex : Exchange} {size : Nat} (h : ex.Valid size) :
    (backwards ex).listed = ex.listed.reverse := by
  apply List.ext_getElem
  · simp [Exchange.listed, backwards, h.destinations_length, h.recvSizes_length, h.sendSizes_length]
  · intro i hi hi'
    simp [Exchange.listed, backwards, h.destinations_length, h.recvSizes_length,
      h.sendSizes_length]

theorem partner_lt {rank ranks : Nat} (hrank : rank < ranks) (hpower : isPowerOfTwo ranks = true) :
    ∀ partner ∈ partners rank ranks, partner < ranks := by
  obtain ⟨k, rfl⟩ := isPowerOfTwo_iff.1 hpower
  intro partner hmem
  obtain ⟨step, hstep, rfl⟩ := List.mem_map.1 hmem
  rw [Nat.log2_two_pow, List.mem_range] at hstep
  rw [Nat.one_shiftLeft]
  exact Nat.xor_lt_two_pow hrank (Nat.pow_lt_pow_right (by decide) hstep)

theorem valid_halving {rank ranks : Nat} (hrank : rank < ranks) (hpower : isPowerOfTwo ranks = true)
    (size : Nat) (tag : Tag) : (halving rank size (partners rank ranks) tag).Valid ranks where
  destinations_length := rfl
  recvSizes_length := by simp [halving]
  sendSizes_length := by simp [halving]
  rank_lt := hrank
  source_lt := partner_lt hrank hpower
  destination_lt := partner_lt hrank hpower

theorem listed_halving (rank ranks size : Nat) (tag : Tag) :
    (halving rank size (partners rank ranks) tag).listed = halvings rank ranks size tag := by
  apply List.ext_getElem <;> simp [halving, Exchange.listed, halvings]

theorem runOn_allreduceLoop (hinside : c.Inside s) (r : Reduction) :
    (allreduceLoop c r).runOn s = (allreduce r).outcome c s := by
  rw [Pattern.outcome, allreduce_eq]
  cases hpower : isPowerOfTwo c.size with
  | false => simp [allreduceLoop, hpower, runOn_bind]
  | true =>
    cases htag : r.secondTag with
    | error error =>
      simp [allreduceLoop, hpower, runOn_bind, runOn_discard, htag, Except.map]
    | ok secondTag =>
      simp only [allreduceLoop, hpower, runOn_bind, runOn_discard, htag, runOn_check_ok, Except.map,
        Bool.not_true, Bool.false_eq_true, if_false, if_true]
      refine runOn_eachRank (fun rank hrank t ht => ?_) hinside
      have hvalid := valid_halving hrank hpower r.size r.tag
      have hvalid' := valid_halving hrank hpower r.size secondTag
      have hphases := r.runOn_twoPhases ht (halving rank r.size (partners rank c.size))
        (fun tag => backwards (halving rank r.size (partners rank c.size) tag)) htag hvalid
        (valid_backwards hvalid') rfl rfl
      rw [listed_halving, listed_backwards hvalid', listed_halving] at hphases
      rw [runOn_bind, partners?, if_pos hpower, runOn_check_ok]
      exact hphases

end Butterfly

namespace Alltoall

/-- The exchange of a rank with all others. -/
def exchangeOf (rank ranks : Nat) (recvSizes sendSizes : List Nat) (tag : Tag) : Exchange where
  rank := rank
  sources := sources rank ranks
  destinations := destinations rank ranks
  recvSizes := recvSizes
  sendSizes := sendSizes
  tag := tag

/-- The exchange of a rank with all others, when all sizes are the same. -/
def uniform (request : Request) (ranks rank : Nat) : Exchange :=
  exchangeOf rank ranks (.replicate (ranks - 1) request.size) (.replicate (ranks - 1) request.size)
    request.tag

def windowedLoop (c : Communicator) (request : Request) : Build Unit := do
  if request.window = 0 then refuse .zeroWindow
  eachRank c fun rank => do
    discard ((uniform request c.size rank).windowedLoop c request.window)

def balancedLoop (c : Communicator) (request : Request) : Build Unit :=
  eachRank c fun rank => do
    discard ((uniform request c.size rank).parallelLoop c)

/-- The entry of a matrix; it has to be there. -/
def lookUp (sizes : List (List Nat)) (row column : Nat) : Build Nat := do
  demand (entryAt (← demand (entryAt sizes row)) column)

def unbalancedLoop (c : Communicator) (request : Request) (sizes : List (List Nat)) :
    Build Unit := do
  if sizes.length ≠ c.size then
    refuse (.lengthMismatch "payload matrix" sizes.length c.size)
  if let some row := sizes.find? (·.length ≠ c.size) then
    refuse (.lengthMismatch "payload matrix row" row.length c.size)
  eachRank c fun rank => do
    let recvSizes ← (sources rank c.size).mapM fun source => lookUp sizes source rank
    let sendSizes ← (destinations rank c.size).mapM fun destination =>
      lookUp sizes rank destination
    discard ((exchangeOf rank c.size recvSizes sendSizes request.tag).parallelLoop c)

section Exchanges

variable {rank ranks : Nat}

theorem source_lt (hranks : 0 < ranks) : ∀ source ∈ sources rank ranks, source < ranks := by
  intro source hmem
  obtain ⟨offset, -, rfl⟩ := List.mem_map.1 hmem
  exact Nat.mod_lt _ hranks

theorem destination_lt (hranks : 0 < ranks) :
    ∀ destination ∈ destinations rank ranks, destination < ranks := by
  intro destination hmem
  obtain ⟨offset, -, rfl⟩ := List.mem_map.1 hmem
  exact Nat.mod_lt _ hranks

theorem valid_exchangeOf (hrank : rank < ranks) (sizeOf : Nat → Nat → Nat) (tag : Tag) :
    (exchangeOf rank ranks ((sources rank ranks).map (sizeOf · rank))
      ((destinations rank ranks).map (sizeOf rank)) tag).Valid ranks where
  destinations_length := by simp [exchangeOf, sources, destinations]
  recvSizes_length := by simp [exchangeOf]
  sendSizes_length := by simp [exchangeOf, sources, destinations]
  rank_lt := hrank
  source_lt := source_lt (Nat.zero_lt_of_lt hrank)
  destination_lt := destination_lt (Nat.zero_lt_of_lt hrank)

theorem listed_exchangeOf (rank ranks : Nat) (sizeOf : Nat → Nat → Nat) (tag : Tag) :
    (exchangeOf rank ranks ((sources rank ranks).map (sizeOf · rank))
      ((destinations rank ranks).map (sizeOf rank)) tag).listed =
      pairs sizeOf tag ranks rank := by
  apply List.ext_getElem <;> simp [exchangeOf, Exchange.listed, pairs]

theorem uniform_eq (request : Request) (ranks rank : Nat) :
    uniform request ranks rank =
      exchangeOf rank ranks ((sources rank ranks).map fun _ => request.size)
        ((destinations rank ranks).map fun _ => request.size) request.tag := by
  simp [uniform, sources, destinations, offsets, Function.comp_def]

theorem valid_uniform (hrank : rank < ranks) (request : Request) :
    (uniform request ranks rank).Valid ranks := by
  rw [uniform_eq]
  exact valid_exchangeOf hrank (fun _ _ => request.size) request.tag

theorem listed_uniform (request : Request) (ranks rank : Nat) :
    (uniform request ranks rank).listed =
      pairs (fun _ _ => request.size) request.tag ranks rank := by
  rw [uniform_eq]
  exact listed_exchangeOf rank ranks (fun _ _ => request.size) request.tag

end Exchanges

theorem runOn_windowedLoop (hinside : c.Inside s) (request : Request) :
    (windowedLoop c request).runOn s = (windowed request).outcome c s := by
  rw [Pattern.outcome, windowed]
  by_cases hwindow : request.window = 0
  · simp [windowedLoop, hwindow, runOn_bind]
  · simp only [windowedLoop, if_neg hwindow]
    refine runOn_eachRank (fun rank hrank t ht => ?_) hinside
    rw [runOn_discard, Exchange.runOn_windowedLoop ht,
      Exchange.runOn_windowed ht (valid_uniform hrank request) hwindow, listed_uniform]
    rfl

theorem runOn_balancedLoop (hinside : c.Inside s) (request : Request) :
    (balancedLoop c request).runOn s = (balanced request).outcome c s := by
  refine runOn_eachRank (fun rank hrank t ht => ?_) hinside
  rw [runOn_discard, Exchange.runOn_parallelLoop ht,
    Exchange.runOn_parallel ht (valid_uniform hrank request), listed_uniform]
  rfl

theorem runOn_lookUp {sizes : List (List Nat)} {ranks row column : Nat}
    (hrows : sizes.length = ranks) (hsquare : ∀ row ∈ sizes, row.length = ranks)
    (hrow : row < ranks)
    (hcolumn : column < ranks) (s : Schedule) :
    (lookUp sizes row column).runOn s = (.ok (entry sizes row column), s) := by
  have hlt : row < sizes.length := hrows ▸ hrow
  have hlt' : column < sizes[row].length := by
    rw [hsquare _ (List.getElem_mem hlt)]
    exact hcolumn
  simp [lookUp, entryAt, entry, runOn_bind, hlt, hlt']

theorem runOn_mapM_lookUp {α : Type} {sizes : List (List Nat)} {ranks : Nat}
    (hrows : sizes.length = ranks) (hsquare : ∀ row ∈ sizes, row.length = ranks) (places : List α)
    (row column : α → Nat) (hplaces : ∀ x ∈ places, row x < ranks ∧ column x < ranks)
    (s : Schedule) :
    Build.runOn (places.mapM fun x => lookUp sizes (row x) (column x)) s =
      (.ok (places.map fun x => entry sizes (row x) (column x)), s) := by
  induction places with
  | nil => rfl
  | cons x places ih =>
    obtain ⟨hrow, hcolumn⟩ := hplaces x (by simp)
    have hrest := ih fun y hy => hplaces y (by simp [hy])
    simp only [List.mapM_cons, runOn_bind, runOn_lookUp hrows hsquare hrow hcolumn, hrest,
      runOn_pure, List.map_cons]

theorem runOn_unbalancedLoop (hinside : c.Inside s) (request : Request)
    (sizes : List (List Nat)) :
    (unbalancedLoop c request sizes).runOn s = (unbalanced request sizes).outcome c s := by
  rw [Pattern.outcome, unbalanced]
  by_cases hrows : sizes.length = c.size
  · cases hrow : sizes.find? (·.length ≠ c.size) with
    | some row =>
      simp only [unbalancedLoop, hrows, hrow, ne_eq, not_true_eq_false, if_false, runOn_bind,
        runOn_refuse]
    | none =>
      have hsquare : ∀ row ∈ sizes, row.length = c.size := by
        simpa [List.find?_eq_none] using hrow
      simp only [unbalancedLoop, hrows, hrow, ne_eq, not_true_eq_false, if_false]
      refine runOn_eachRank (fun rank hrank t ht => ?_) hinside
      have hranks := Nat.zero_lt_of_lt hrank
      have hvalid := valid_exchangeOf hrank (entry sizes) request.tag
      rw [runOn_bind, runOn_mapM_lookUp hrows hsquare _ (fun source => source) (fun _ => rank)
        fun source hmem => ⟨source_lt hranks source hmem, hrank⟩]
      simp only [runOn_bind]
      rw [runOn_mapM_lookUp hrows hsquare _ (fun _ => rank) (fun destination => destination)
        fun destination hmem => ⟨hrank, destination_lt hranks destination hmem⟩]
      simp only [runOn_discard]
      rw [Exchange.runOn_parallelLoop ht, Exchange.runOn_parallel ht hvalid, listed_exchangeOf]
      rfl
  · simp [unbalancedLoop, hrows, runOn_bind]

end Alltoall
end Collectives
